import NativeForge.Proofs.TailCallFrames

/-!
# Numbers of the stack frame in compiled code

The stack area of a program is written into its code in several places: the prologue takes it from
the stack pointer and a tail call gives it back, a tail call finds its counter below it, and a call
hands over the slot of the counter. All of them hold the area as a signed 32-bit number. The four
numbers belong to one area in every compiled program. It is the area of the program if that is less
than two gigabytes, and otherwise it is the area minus four gigabytes.
-/

namespace NativeForge

open X64 Virtual Target TailCall

/-- The stack area of a program: what it uses, rounded up to a multiple of eight. -/
def Virtual.Program.stackArea (p : Program) : Nat := roundUp p.stackDepth.toNat 8

/-- One instruction moves the stack pointer by an area, or there is none because the program uses no
stack. -/
def Virtual.Program.MovesStack (p : Program) (op : AluOp) (area : Int) (move : List Instr) : Prop :=
  if p.stackDepth = 0 then move = []
  else ∃ imm : SignedField, move = [.aluImm op .wide .rsp imm] ∧ imm.value = area

/-- The counter of a tail call is compared with its limit and counted up, at a displacement from the
frame pointer. -/
def Counts (disp : Int) (code : List Instr) : Prop :=
  ∃ load store : SignedField, ∃ exhausted, load.value = disp ∧ store.value = disp ∧
    code = [.load .word .rax .rbp load,
      .cmpImm .narrow .rax (.byte (Int8.ofNat tailCallLimit)), .jcc .aboveEqual exhausted,
      .aluImm .add .narrow .rax (.byte 1), .store .word .rbp .rax store]

/-- A call is handed the slot of the counter, at a displacement from the frame pointer. -/
def HandsCounter (disp : Int) (code : List Instr) : Prop :=
  ∃ field : SignedField, field.value = disp ∧ code = [.load .double .rax .rbp field]

/-- The numbers in the code of a compiled program are those of a stack area. -/
structure FrameNumbers (program : Program) (c : CompiledProgram) (area : Int) : Prop where
  /-- Behind its first bytes, the prologue makes room for the area. -/
  prologue : ∃ move, program.MovesStack .sub area move ∧
    HasCode c.code 0 ((Frame.ofProgram program).head ++ (move ++
      ((if (Frame.ofProgram program).counted then [.push .rax] else []) ++
        (Frame.ofProgram program).pushes)))
  /-- In the slot of a tail call, the counter is found below the area, and behind that the area is
  given back. -/
  tailCalls : ∀ k i id, program.Visits k i → i.operation = .ok (.tailCall id) →
    ∃ count move check teardown, Counts (-area - 4) count ∧ program.MovesStack .add area move ∧
      HasCode c.code check count ∧
      HasCode c.code teardown ((Frame.ofProgram program).pops ++ (.pop .rax :: move)) ∧
      c.offset k ≤ check ∧ check + codeSize count ≤ teardown ∧
      teardown + codeSize ((Frame.ofProgram program).pops ++ (.pop .rax :: move)) ≤ c.offset (k + 1)
  /-- The slot of a call hands over the counter, if the frame has one, and calls. -/
  calls : ∀ k i id subprogram, program.Visits k i → i.operation = .ok (.call id subprogram) →
    ∃ counter rel, HasCode c.code (c.offset k) (counter ++ [.call rel]) ∧
      c.offset (k + 1) = c.offset k + codeSize (counter ++ [.call rel]) ∧
      if (Frame.ofProgram program).counted then HandsCounter (-area - 8) counter else counter = []

section Lowering

variable {p : Pass} {depth : UInt32}

/-- The slot of the counter is below the area. -/
theorem Pass.passCounter_hands {counter : List Instr} (h : p.passCounter depth = .ok counter) :
    if p.frame.counted then HandsCounter (-depth.toInt32.toInt - 8) counter else counter = [] := by
  obtain ⟨hcounted, off, hoff, rfl⟩ | ⟨hcounted, rfl⟩ := Pass.passCounter_eq_ok h
  · rw [if_pos hcounted]
    exact ⟨.dword off, hoff, rfl⟩
  · rw [hcounted]
    rfl

/-- A call hands over the counter first. -/
theorem Pass.call_hands {index : Nat} {id : Int32} {subprogram : Bool} {fragment : Fragment}
    (h : p.call depth index id subprogram = .ok fragment) :
    ∃ counter rel, fragment.code = counter ++ [.call rel] ∧
      if p.frame.counted then HandsCounter (-depth.toInt32.toInt - 8) counter else counter = [] := by
  obtain ⟨_, counter, rel, hcounter, _, rfl⟩ := Pass.call_eq_ok.mp h
  exact ⟨counter, rel, rfl, Pass.passCounter_hands hcounter⟩

/-- Counting a tail call finds the counter below the area. -/
theorem counts_counting {f : Frame} (hdepth : f.IsDepth depth) (exhausted : SignedField) :
    Counts (-depth.toInt32.toInt - 4) (counting depth exhausted) := by
  have hvalue : (SignedField.dword (Frame.counterOffset depth)).value =
      -depth.toInt32.toInt - 4 := by
    rw [SignedField.value, Frame.toInt_counterOffset hdepth]
    omega
  exact ⟨.dword (Frame.counterOffset depth), .dword (Frame.counterOffset depth), exhausted, hvalue,
    hvalue, rfl⟩

/-- A tail call in parts: it counts, and takes the frame down behind that. A direct one starts with
the count, and its patchable fields are around the teardown. -/
theorem Pass.tailCall_split {id : Int32} {fragment : Fragment}
    (h : p.tailCall depth id = .ok fragment) :
    ∃ before exhausted between after,
      fragment.code = before ++ counting depth exhausted ++ between ++ p.frame.teardown depth ++
        after ∧
      (id ≠ 0 → codeSize (before ++ counting depth exhausted) = 20 ∧
        codeSize between = siteSize ∧ codeSize after = siteSize) := by
  obtain ⟨hid, code, hc, rfl⟩ | ⟨_, _, code, site, hc, rfl⟩ := Pass.tailCall_eq_ok h
  · obtain ⟨outOfBounds, exhausted, empty, rfl, _⟩ := indirect_eq_ok hc
    refine ⟨[.mov .narrow .rdx .rdx, .cmpMem .narrow .rsi .rdx (.shortest p.abi.arrayCountOffset),
      .jcc .belowEqual (.byte outOfBounds)], .byte exhausted,
      [.loadIndexed .rcx .rsi .rdx p.abi.arraySlotsOffset, .test .wide .rcx .rcx,
        .jcc .equal (.byte empty)], landing p.abi ++ [.jmpReg .rcx], ?_, fun hne => absurd hid hne⟩
    simp only [List.append_assoc]
  · obtain ⟨exhausted, rfl, _⟩ := direct_eq_ok hc
    exact ⟨[], .byte exhausted, [.jmp (.dword _)], [.nop 4], rfl,
      fun _ => ⟨codeSize_counting depth exhausted, rfl, rfl⟩⟩

end Lowering

/-- The rounded depth of a frame is what its instructions move the stack pointer by. -/
theorem movesStack_dword (program : Program) (op : AluOp) (depth : UInt32) :
    program.MovesStack op depth.toInt32.toInt
      (if program.stackDepth = 0 then [] else [.aluImm op .wide .rsp (.dword depth.toInt32)]) := by
  unfold Program.MovesStack
  split
  · rfl
  · exact ⟨.dword depth.toInt32, rfl, rfl⟩

namespace Emits

variable {config : Config} {program : Program} {resolve : CallSite → Option Address}
  {tables : Array Table} {e : Emission} {done : Installation} {c : CompiledProgram}

/-- The code of a compiled program starts with the prologue. -/
theorem hasCode_prologue (he : Emits (sourceOf config program resolve) tables e done c) :
    ∃ depth, (Frame.ofProgram program).IsDepth depth ∧
      HasCode c.code 0 ((Frame.ofProgram program).prologue depth) := by
  obtain ⟨_, hmono, hend, depth, hdepth, hstart, hprologue⟩ := he.offset_map
  have hle := hmono 0 program.size (Nat.zero_le _) (Nat.le_refl _)
  have hcode := he.hasCode hprologue (by rw [Nat.zero_add, ← hstart, ← hend]; exact hle)
  exact ⟨depth, hdepth, hcode⟩

/-- The numbers of a tail call are those of the rounded depth. -/
theorem tailCall_numbers (he : Emits (sourceOf config program resolve) tables e done c)
    {depth : UInt32} (hdepth : (Frame.ofProgram program).IsDepth depth) {k : Nat} {i : Insn}
    {id : Int32} (hv : program.Visits k i) (hop : i.operation = .ok (.tailCall id)) :
    ∃ count move check teardown, Counts (-depth.toInt32.toInt - 4) count ∧
      program.MovesStack .add depth.toInt32.toInt move ∧ HasCode c.code check count ∧
      HasCode c.code teardown ((Frame.ofProgram program).pops ++ (.pop .rax :: move)) ∧
      c.offset k ≤ check ∧ check + codeSize count ≤ teardown ∧
      teardown + codeSize ((Frame.ofProgram program).pops ++ (.pop .rax :: move)) ≤
        c.offset (k + 1) := by
  obtain ⟨before, s, after, depth', epilogue, fragment, hs, rfl, hframe, hdepth', hh, hstop⟩ :=
    he.holds_visited hv hop
  obtain rfl := hdepth'.unique hdepth
  obtain ⟨front, exhausted, between, back, hcode, hdirect⟩ := Pass.tailCall_split hh.lowered
  have hteardown : e.pass.frame.teardown depth = (Frame.ofProgram program).pops ++ (.pop .rax ::
      (if program.stackDepth = 0 then [] else [.aluImm .add .wide .rsp (.dword depth.toInt32)])) := by
    rw [hframe, Frame.teardown, List.append_assoc]
    rfl
  have hfirst : fragment.code = front ++ counting depth exhausted ++
      (between ++ (e.pass.frame.teardown depth ++ back)) := by
    rw [hcode]
    simp only [List.append_assoc]
  have hsize := congrArg codeSize hcode
  simp only [codeSize_append] at hsize hdirect
  refine ⟨counting depth exhausted, _, c.offset (slotCount before) + codeSize front,
    c.offset (slotCount before) + codeSize (front ++ counting depth exhausted ++ between),
    counts_counting hdepth exhausted, movesStack_dword program .add depth, ?_, ?_, ?_⟩
  · refine he.hasCode_part hs hh hfirst ?_
    rintro _ ⟨⟩ hid
    obtain ⟨hcount, hbetween, hback⟩ := hdirect hid
    simp only [codeSize_append]
    omega
  · rw [← hteardown]
    refine he.hasCode_part hs hh hcode ?_
    rintro _ ⟨⟩ hid
    obtain ⟨hcount, hbetween, hback⟩ := hdirect hid
    simp only [codeSize_append]
    omega
  · rw [← hteardown, hstop]
    simp only [codeSize_append]
    omega

/-- The numbers of a call are those of the rounded depth. -/
theorem call_numbers (he : Emits (sourceOf config program resolve) tables e done c)
    {depth : UInt32} (hdepth : (Frame.ofProgram program).IsDepth depth) {k : Nat} {i : Insn}
    {id : Int32} {subprogram : Bool} (hv : program.Visits k i)
    (hop : i.operation = .ok (.call id subprogram)) :
    ∃ counter rel, HasCode c.code (c.offset k) (counter ++ [.call rel]) ∧
      c.offset (k + 1) = c.offset k + codeSize (counter ++ [.call rel]) ∧
      if (Frame.ofProgram program).counted then HandsCounter (-depth.toInt32.toInt - 8) counter
        else counter = [] := by
  obtain ⟨before, s, after, depth', epilogue, fragment, hs, rfl, hframe, hdepth', hh, hstop⟩ :=
    he.holds_visited hv hop
  obtain rfl := hdepth'.unique hdepth
  obtain ⟨counter, rel, hcode, hcounter⟩ := Pass.call_hands hh.lowered
  rw [hframe] at hcounter
  rw [hcode] at hstop
  refine ⟨counter, rel, ?_, hstop, hcounter⟩
  exact he.hasCode_part hs hh (show fragment.code = [] ++ (counter ++ [.call rel]) ++ [] by
    rw [hcode, List.nil_append, List.append_nil]) fun _ hno => by cases hno

/-- All numbers are those of the rounded depth. -/
theorem frameNumbers (he : Emits (sourceOf config program resolve) tables e done c) :
    ∃ depth, (Frame.ofProgram program).IsDepth depth ∧
      FrameNumbers program c depth.toInt32.toInt := by
  obtain ⟨depth, hdepth, hprologue⟩ := he.hasCode_prologue
  refine ⟨depth, hdepth, ⟨_, movesStack_dword program .sub depth, ?_⟩,
    fun k i id hv hop => he.tailCall_numbers hdepth hv hop,
    fun k i id subprogram hv hop => he.call_numbers hdepth hv hop⟩
  rw [Frame.prologue_eq, Frame.setup, List.append_assoc] at hprologue
  exact hprologue

end Emits

/-- A program that uses stack has the numbers of one area only: the prologue holds it. -/
theorem FrameNumbers.area_unique {program : Program} {c : CompiledProgram} {area area' : Int}
    (h : FrameNumbers program c area) (h' : FrameNumbers program c area')
    (hne : program.stackDepth ≠ 0) : area = area' := by
  obtain ⟨move, hmove, hcode⟩ := h.prologue
  obtain ⟨move', hmove', hcode'⟩ := h'.prologue
  rw [Program.MovesStack, if_neg hne] at hmove hmove'
  obtain ⟨imm, rfl, rfl⟩ := hmove
  obtain ⟨imm', rfl, rfl⟩ := hmove'
  have hfetch := hcode.right.fetch_eq trivial
  have hfetch' := hcode'.right.fetch_eq trivial
  cases hfetch.symm.trans hfetch'
  rfl

/-- The immediates of the prologue and of every tail call's teardown, and the displacements of the
counter, are those of the stack area exactly if the program uses at most eight bytes less than two
gigabytes of stack; from there on they are those of an area four gigabytes smaller. -/
theorem frame_numbers_exact_iff {config : Config} {program : Program} {c : CompiledProgram}
    (h : Compiles config program c) :
    program.stackArea < 2 ^ 32 ∧
    FrameNumbers program c
      (if program.stackArea < 2 ^ 31 then (program.stackArea : Int)
        else program.stackArea - 2 ^ 32) ∧
    (FrameNumbers program c program.stackArea ↔ program.stackDepth.toNat ≤ 2 ^ 31 - 8) := by
  obtain ⟨resolve, tables, e, done, he⟩ := h.emits
  obtain ⟨depth, hdepth, hnumbers⟩ := he.frameNumbers
  have harea : depth.toNat = program.stackArea := hdepth
  rw [Frame.toInt_depth, harea] at hnumbers
  have hbound : program.stackArea < 2 ^ 31 ↔ program.stackDepth.toNat ≤ 2 ^ 31 - 8 := by
    unfold Program.stackArea roundUp
    omega
  refine ⟨harea ▸ depth.toNat_lt, hnumbers, fun hexact => ?_, fun hle => ?_⟩
  · rw [← hbound]
    -- a larger area would be written as another number, but the prologue holds one number only
    refine Nat.lt_of_not_le fun hlarge => ?_
    rw [if_neg (by omega)] at hnumbers
    have hne : program.stackDepth ≠ 0 := by
      intro hzero
      unfold Program.stackArea at hlarge
      rw [hzero] at hlarge
      exact absurd hlarge (by decide)
    have heq := hexact.area_unique hnumbers hne
    omega
  · rw [if_pos (hbound.mpr hle)] at hnumbers
    exact hnumbers

/-- A call, a tail call through a descriptor and one through an array, with a saved register. -/
def framedProgram (stackDepth : UInt32) : Program where
  name := "framed"
  insns := [⟨0xB7, 6, 0, 0, 1⟩, ⟨0x85, 0, 0, 0, 1⟩, ⟨0xF5, 0, 0, 0, 1⟩, ⟨0xF5, 0, 0, 0, 0⟩,
    ⟨0x95, 0, 0, 0, 0⟩]
  stackDepth := stackDepth
  descriptors := [{ table := 0, key := 0 }]

/-- The compiler accepts this program with a small stack area, which its code holds in all places. -/
theorem frame_numbers_exact_framedProgram :
    ∃ c, Compiles {} (framedProgram 12) c ∧
      (framedProgram 12).Visits 1 ⟨0x85, 0, 0, 0, 1⟩ ∧
      (framedProgram 12).Visits 2 ⟨0xF5, 0, 0, 0, 1⟩ ∧
      (framedProgram 12).Visits 3 ⟨0xF5, 0, 0, 0, 0⟩ ∧
      c.code.extract 11 18 = encodeAll [.aluImm .sub .wide .rsp (.dword 16)] ∧
      FrameNumbers (framedProgram 12) c 16 := by
  have hc : ((compile {} (framedProgram 12) (fun _ => some 0x2000) #[{ maxEntries := 1 }]
      fun size => .ok (.blank 0x1000 size)).program?.map fun c => c.code.extract 11 18) =
      some (encodeAll [.aluImm .sub .wide .rsp (.dword 16)]) := by
    decide +kernel
  obtain ⟨c, hc, hcode⟩ := Option.map_eq_some_iff.mp hc
  have hcompiles : Compiles {} (framedProgram 12) c :=
    .atOnce (Compilation.program?_eq_some.mp hc)
  exact ⟨c, hcompiles, ⟨by decide, rfl⟩, ⟨by decide, rfl⟩, ⟨by decide, rfl⟩, hcode,
    (frame_numbers_exact_iff hcompiles).2.2.mpr (by decide)⟩

/-- The compiler accepts this program with a stack area of eight bytes more than two gigabytes. Its
prologue subtracts a negative number from the stack pointer, so the numbers in its code are not those
of the area. -/
theorem frame_numbers_wrap_framedProgram :
    ∃ c, Compiles {} (framedProgram 2147483656) c ∧
      (framedProgram 2147483656).stackArea = 2147483656 ∧
      c.code.extract 11 18 = encodeAll [.aluImm .sub .wide .rsp (.dword (-2147483640))] ∧
      FrameNumbers (framedProgram 2147483656) c (-2147483640) ∧
      ¬FrameNumbers (framedProgram 2147483656) c 2147483656 := by
  have hc : ((compile {} (framedProgram 2147483656) (fun _ => some 0x2000) #[{ maxEntries := 1 }]
      fun size => .ok (.blank 0x1000 size)).program?.map fun c => c.code.extract 11 18) =
      some (encodeAll [.aluImm .sub .wide .rsp (.dword (-2147483640))]) := by
    decide +kernel
  obtain ⟨c, hc, hcode⟩ := Option.map_eq_some_iff.mp hc
  have hcompiles : Compiles {} (framedProgram 2147483656) c :=
    .atOnce (Compilation.program?_eq_some.mp hc)
  obtain ⟨resolve, tables, e, done, he⟩ := hcompiles.emits
  obtain ⟨depth, hdepth, hnumbers⟩ := he.frameNumbers
  obtain rfl : depth = 2147483656 := UInt32.toNat_inj.mp hdepth
  refine ⟨c, hcompiles, rfl, hcode, hnumbers, fun hexact => ?_⟩
  have heq := hexact.area_unique hnumbers (by decide)
  exact absurd heq (by decide)

end NativeForge
