import NativeForge.Proofs.Installing
import NativeForge.Proofs.Jumps
import NativeForge.Proofs.Meaning

/-!
# Branch targets of compiled programs

In the image of every compiled program the branches are exact: the displacement that a jump, a
conditional jump or a later exit ends with leads from the end of its slot to the first byte of the
slot it names, and it takes one byte exactly when it fits one byte. The displacements come from
the offsets of the pass before, so this rests on the final pass keeping its offsets.
-/

namespace NativeForge

open X64 Virtual Target TailCall

namespace Virtual

/-- The slot is an unconditional jump. -/
def Insn.isJump (i : Insn) : Bool := i.cls == 5 && i.op == 0x00

/-- The slot leaves the program. -/
def Insn.isExit (i : Insn) : Bool := i.cls == 5 && i.op == 0x90

/-- The slot is a conditional jump on 64-bit or on 32-bit operands. -/
def Insn.isBranch (i : Insn) : Bool := (i.cls == 5 || i.cls == 6) && (condition? i.op).isSome

/-- The slot opens an operation of the program: it is not the second half of a wide load. -/
def Program.Visits (p : Program) (k : Nat) (i : Insn) : Prop :=
  (∃ s ∈ p.steps, s.index = k) ∧ p.insns[k]? = some i

/-- The slot is the first exit of the program. -/
def Program.IsFirstExit (p : Program) (k : Nat) : Prop :=
  (∃ i, p.Visits k i ∧ i.isExit = true) ∧ ∀ l i, p.Visits l i → i.isExit = true → k ≤ l

/-- A visited slot that opens no wide load is a step of one slot that means the slot's operation. -/
theorem Program.Visits.split {p : Program} {k : Nat} {i : Insn} (h : p.Visits k i)
    (hw : i.isWideLoad = false) :
    ∃ before s after, p.steps = before ++ s :: after ∧ slotCount before = k ∧ s.index = k ∧
      s.slots = 1 ∧ s.operation = i.operation := by
  obtain ⟨⟨s, hs, rfl⟩, hi⟩ := h
  obtain ⟨before, after, hsteps⟩ := List.append_of_mem hs
  obtain ⟨hindex, j, rest, hdrop, _, hcase⟩ := stepsFrom_split hsteps
  rw [Nat.zero_add] at hindex
  have hj : p.insns[s.index]? = some j := by
    rw [hindex, ← List.head?_drop, hdrop]
    rfl
  obtain rfl : i = j := Option.some.inj (hi.symm.trans hj)
  rcases hcase with ⟨hj, _⟩ | ⟨hj, _⟩ | ⟨_, hslots, hop⟩
  · rw [hw] at hj
    cases hj
  · rw [hw] at hj
    cases hj
  · exact ⟨before, s, after, hsteps, hindex.symm, rfl, hslots, hop⟩

/-- A step of a program is visited. -/
theorem Program.visits_of_split {p : Program} {before after : List Step} {s : Step}
    (h : p.steps = before ++ s :: after) :
    s.index = slotCount before ∧ ∃ i, p.Visits s.index i ∧
      (i.isWideLoad = false → s.operation = i.operation) ∧
      (i.isWideLoad = true → s.operation ≠ .ok .exit) := by
  obtain ⟨hindex, i, rest, hdrop, _, hcase⟩ := stepsFrom_split h
  rw [Nat.zero_add] at hindex
  refine ⟨hindex, i, ⟨⟨s, by simp [h], rfl⟩, ?_⟩, ?_, ?_⟩
  · rw [hindex, ← List.head?_drop, hdrop]
    rfl
  · intro hw
    rcases hcase with ⟨hj, _⟩ | ⟨hj, _⟩ | ⟨_, _, hop⟩
    · rw [hw] at hj
      cases hj
    · rw [hw] at hj
      cases hj
    · exact hop
  · intro hw
    rcases hcase with ⟨_, _, _, hop⟩ | ⟨_, _, next, _, _, hop⟩ | ⟨hj, _⟩
    · rw [hop]
      simp
    · rw [hop]
      intro hexit
      obtain ⟨dst, _, hexit⟩ := bind_eq_ok.mp hexit
      cases hexit
    · rw [hw] at hj
      cases hj

/-- A wide load is of class zero. -/
theorem Insn.not_isWideLoad_of_cls_ne {i : Insn} (h : i.cls ≠ 0) : i.isWideLoad = false := by
  unfold isWideLoad
  apply beq_eq_false_iff_ne.mpr
  intro hc
  unfold cls at h
  rw [hc] at h
  exact h rfl

/-- A slot of a jump class opens no wide load. -/
theorem Insn.not_isWideLoad_of_cls {i : Insn} (h : i.cls = 5 ∨ i.cls = 6) :
    i.isWideLoad = false := by
  apply not_isWideLoad_of_cls_ne
  rcases h with h | h <;> rw [h] <;> decide

/-- No arithmetic slot leaves the program. -/
theorem Insn.arithmetic_ne_exit (i : Insn) (size : OpSize) : i.arithmetic size ≠ .ok .exit := by
  intro h
  obtain ⟨dst, _, hreads⟩ := reads_of_arithmetic h
  cases hreads

/-- No load slot leaves the program. -/
theorem Insn.loading_ne_exit (i : Insn) : i.loading ≠ .ok .exit := by
  intro h
  obtain ⟨dst, _, h⟩ := bind_eq_ok.mp h
  obtain ⟨base, _, h⟩ := bind_eq_ok.mp h
  dsimp only at h
  repeat' split at h
  all_goals cases h

/-- No slot that stores an immediate leaves the program. -/
theorem Insn.storingImm_ne_exit (i : Insn) : i.storingImm ≠ .ok .exit := by
  intro h
  unfold storingImm at h
  split at h
  · obtain ⟨base, _, h⟩ := bind_eq_ok.mp h
    cases h
  · cases h

/-- An atomic slot means an operation on the cell of its offset, with a native form or without. -/
theorem Insn.atomicOf_eq_ok {i : Insn} {size : OpSize} {base src : VReg} {operation : Operation}
    (h : i.atomicOf size base src = .ok operation) :
    (∃ op, operation = .atomic op size base src i.off) ∨
      ∃ op, operation = .fetch op size base src i.off := by
  unfold atomicOf at h
  repeat' split at h
  all_goals cases h
  all_goals first | exact .inl ⟨_, rfl⟩ | exact .inr ⟨_, rfl⟩

/-- A slot that stores a register means a store or an atomic operation. -/
theorem Insn.storing_eq_ok {i : Insn} {operation : Operation} (h : i.storing = .ok operation) :
    ∃ base src, VReg.ofIndex? i.src = some src ∧
      (operation = .store (widthOf i.size) base src i.off ∨
        ∃ size, (∃ op, operation = .atomic op size base src i.off) ∨
          ∃ op, operation = .fetch op size base src i.off) := by
  obtain ⟨base, _, h⟩ := bind_eq_ok.mp h
  obtain ⟨src, hsrc, h⟩ := bind_eq_ok.mp h
  refine ⟨base, src, register_eq_ok.mp hsrc, ?_⟩
  dsimp only at h
  repeat' split at h
  · exact .inl (pure_eq_ok.mp h).symm
  · exact .inr ⟨_, atomicOf_eq_ok h⟩
  · exact .inr ⟨_, atomicOf_eq_ok h⟩
  · cases h

/-- No slot that stores a register leaves the program. -/
theorem Insn.storing_ne_exit (i : Insn) : i.storing ≠ .ok .exit := by
  intro h
  obtain ⟨base, src, _, h | ⟨size, ⟨op, h⟩ | ⟨op, h⟩⟩⟩ := storing_eq_ok h <;> cases h

/-- A conditional jump slot means a conditional jump on its condition. -/
theorem Insn.branching_eq_ok {i : Insn} {size : OpSize} {operation : Operation}
    (h : i.branching size = .ok operation) :
    ∃ cond dst src, condition? i.op = some cond ∧ register i.dst = .ok dst ∧ i.operand = .ok src ∧
      operation = .branch cond size dst src i.off := by
  unfold branching at h
  split at h
  · cases h
  · rename_i cond hc
    obtain ⟨dst, hd, h⟩ := bind_eq_ok.mp h
    obtain ⟨src, hs, h⟩ := bind_eq_ok.mp h
    exact ⟨cond, dst, src, hc, hd, hs, (pure_eq_ok.mp h).symm⟩

/-- The exits are exactly the slots that mean leaving the program. -/
theorem Insn.operation_eq_exit {i : Insn} : i.operation = .ok .exit ↔ i.isExit = true := by
  unfold isExit
  rw [Bool.and_eq_true, beq_iff_eq, beq_iff_eq]
  constructor
  · intro h
    unfold operation at h
    split at h
    · exact absurd h i.loading_ne_exit
    · split at h
      · exact absurd h i.storingImm_ne_exit
      · split at h
        · exact absurd h i.storing_ne_exit
        · split at h
          · exact absurd h (i.arithmetic_ne_exit _)
          · split at h
            · rename_i hcls
              refine ⟨hcls, ?_⟩
              unfold jumping at h
              split at h
              · cases h
              · split at h
                · assumption
                · split at h
                  · cases h
                  · split at h
                    · cases h
                    · obtain ⟨_, _, _, _, _, _, h⟩ := branching_eq_ok h
                      cases h
            · split at h
              · obtain ⟨_, _, _, _, _, _, h⟩ := branching_eq_ok h
                cases h
              · split at h
                · exact absurd h (i.arithmetic_ne_exit _)
                · cases h
  · rintro ⟨hcls, hop⟩
    simp [operation, hcls, jumping, hop]

/-- A jump slot means a jump by its offset. -/
theorem Insn.operation_of_isJump {i : Insn} (h : i.isJump = true) :
    i.operation = .ok (.jump i.off) := by
  unfold isJump at h
  rw [Bool.and_eq_true, beq_iff_eq, beq_iff_eq] at h
  simp [operation, h.1, jumping, h.2]

/-- A conditional jump is in one of the jump classes. -/
theorem Insn.cls_of_isBranch {i : Insn} (h : i.isBranch = true) : i.cls = 5 ∨ i.cls = 6 := by
  rw [isBranch, Bool.and_eq_true, Bool.or_eq_true, beq_iff_eq, beq_iff_eq] at h
  exact h.1

/-- A jump is in the 64-bit jump class. -/
theorem Insn.cls_of_isJump {i : Insn} (h : i.isJump = true) : i.cls = 5 := by
  rw [isJump, Bool.and_eq_true, beq_iff_eq] at h
  exact h.1

/-- An exit is in the 64-bit jump class. -/
theorem Insn.cls_of_isExit {i : Insn} (h : i.isExit = true) : i.cls = 5 := by
  rw [isExit, Bool.and_eq_true, beq_iff_eq] at h
  exact h.1

/-- The size of the operands of a jump class. -/
def Insn.branchSize (i : Insn) : OpSize := if i.cls = 5 then .wide else .narrow

/-- A conditional jump slot is read as a conditional jump. -/
theorem Insn.operation_eq_branching {i : Insn} (h : i.isBranch = true) :
    i.operation = i.branching i.branchSize := by
  unfold isBranch at h
  rw [Bool.and_eq_true, Bool.or_eq_true, beq_iff_eq, beq_iff_eq] at h
  obtain ⟨hcls, hcond⟩ := h
  have hne : ∀ op : UInt8, condition? op = none → i.op ≠ op := by
    intro op hn heq
    rw [heq, hn] at hcond
    cases hcond
  rcases hcls with hcls | hcls
  · simp [operation, hcls, branchSize, jumping, hne 0x00 (by decide), hne 0x90 (by decide),
      hne 0x80 (by decide), hne 0xF0 (by decide)]
  · simp [operation, hcls, branchSize]

/-- A conditional jump slot that means something means a conditional jump. -/
theorem Insn.operation_of_isBranch {i : Insn} {operation : Operation} (h : i.isBranch = true)
    (ho : i.operation = .ok operation) :
    ∃ cond size dst src, condition? i.op = some cond ∧
      operation = .branch cond size dst src i.off := by
  rw [operation_eq_branching h] at ho
  obtain ⟨cond, dst, src, hc, _, _, rfl⟩ := branching_eq_ok ho
  exact ⟨cond, _, dst, src, hc, rfl⟩

/-- A step that leaves the program is a visited exit. -/
theorem Program.visits_of_exit {p : Program} {before after : List Step} {s : Step}
    (h : p.steps = before ++ s :: after) (hs : s.IsExit) :
    ∃ i, p.Visits (slotCount before) i ∧ i.isExit = true := by
  obtain ⟨hindex, i, hv, hnarrow, hwide⟩ := Program.visits_of_split h
  rw [hindex] at hv
  cases hw : i.isWideLoad with
  | true => exact absurd hs (hwide hw)
  | false => exact ⟨i, hv, Insn.operation_eq_exit.mp ((hnarrow hw).symm.trans hs)⟩

/-- An exit with no exit before it is the first exit. -/
theorem Program.IsFirstExit.eq_slotCount {p : Program} {front back : List Step} {x : Step} {first : Nat}
    (hs : p.steps = front ++ x :: back) (hx : x.IsExit) (hfront : ∀ y ∈ front, ¬y.IsExit)
    (hfirst : p.IsFirstExit first) : first = slotCount front := by
  obtain ⟨⟨j, hv, hj⟩, hleast⟩ := hfirst
  obtain ⟨i, hvi, hi⟩ := Program.visits_of_exit hs hx
  have hle := hleast _ _ hvi hi
  have hcls := Insn.cls_of_isExit hj
  obtain ⟨before, s, after, hsplit, hk, _, _, ho⟩ :=
    hv.split (Insn.not_isWideLoad_of_cls (.inl hcls))
  have hexit : s.IsExit := ho.trans (Insn.operation_eq_exit.mpr hj)
  -- the exit at `first` is not in `front`, so the steps before it include `front`
  rw [hs] at hsplit
  rcases List.append_eq_append_iff.mp hsplit with ⟨mid, rfl, hmid⟩ | ⟨mid, rfl, hmid⟩
  · rw [slotCount_append] at hk
    omega
  · cases mid with
    | nil =>
      rw [List.append_nil] at hle ⊢
      omega
    | cons y mid =>
      obtain ⟨rfl, _⟩ := List.cons.inj hmid
      exact absurd hexit (hfront _ (by simp))

end Virtual

/-- A program was compiled at once, or it waited for its sub-programs and was finished later. -/
inductive Compiles (config : Config) (program : Program) : CompiledProgram → Prop
  | atOnce {resolve : CallSite → Option Address} {tables : Array Table}
      {alloc : Nat → Result MemoryError Image} {c : CompiledProgram}
      (h : (compile config program resolve tables alloc).outcome = .ok (.compiled c)) :
      Compiles config program c
  | later {resolve resolve' : CallSite → Option Address} {tables tables' : Array Table}
      {alloc : Nat → Result MemoryError Image} {p : PendingProgram} {asked : Option Nat}
      {c : CompiledProgram}
      (h : (compile config program resolve tables alloc).outcome = .ok (.pending p))
      (h' : (p.finish program resolve' tables' asked).outcome = .ok (.compiled c)) :
      Compiles config program c

/-- A compiled program was emitted from its own frame. -/
theorem Compiles.emits {config : Config} {program : Program} {c : CompiledProgram}
    (h : Compiles config program c) :
    ∃ resolve tables e done, Emits (sourceOf config program resolve) tables e done c := by
  cases h with
  | @atOnce resolve tables _ _ h =>
    obtain ⟨e, done, he, _⟩ := compile_emits h
    exact ⟨resolve, tables, e, done, he⟩
  | @later _ resolve' _ tables' _ _ _ _ h h' =>
    obtain ⟨hconfig, hframe, _⟩ := compile_pending h
    obtain ⟨e, done, he, _⟩ := finish_emits h'
    rw [hconfig, hframe] at he
    exact ⟨resolve', tables', e, done, he⟩

namespace CompiledProgram

/-- The offset of a slot. -/
def offset (c : CompiledProgram) (k : Nat) : Nat := c.offsets.getD k 0

/-- The bytes of the code. -/
def code (c : CompiledProgram) : List UInt8 := (c.image.bytes.extract 0 c.size).toList

/-- The bytes of the code from the offset of a slot to the offset of the next one. -/
def slotCode (c : CompiledProgram) (k : Nat) : List UInt8 :=
  c.code.extract (c.offset k) (c.offset (k + 1))

end CompiledProgram

/-- The bytes are encodings that do nothing. -/
def NopRun (bytes : List UInt8) : Prop := ∃ run : List (Fin 8), bytes = run.flatMap nopBytes

/-- The bytes are a start, encodings that do nothing, and a branch over a distance: its opcode and
a displacement of one byte exactly when the distance fits a signed byte, else the opcode of the long
form and a displacement of four bytes that holds the distance. -/
def EndsInBranch (start : List UInt8) (short : UInt8) (near : List UInt8) (distance : Int)
    (bytes : List UInt8) : Prop :=
  ∃ filler, NopRun filler ∧
    if -128 ≤ distance ∧ distance ≤ 127 then
      bytes = start ++ filler ++ [short, (Int8.ofInt distance).toUInt8]
    else -(2 ^ 31) ≤ distance ∧ distance < 2 ^ 31 ∧
      bytes = start ++ filler ++ near ++ Bytes.ofInt32 (Int32.ofInt distance)

/-- Filler encodes to bytes that do nothing. -/
theorem IsFiller.nopRun {code : List Instr} (h : IsFiller code) : NopRun (encodeAll code) := by
  induction code with
  | nil => exact ⟨[], rfl⟩
  | cons i rest ih =>
    obtain ⟨extra, rfl⟩ := h i (by simp)
    obtain ⟨run, hrun⟩ := ih fun j hj => h j (by simp [hj])
    exact ⟨extra :: run, by rw [encodeAll_cons, hrun]; rfl⟩

/-- A jump in its shortest form behind filler ends in a branch over its distance. -/
theorem endsInBranch_jmp {filler : List Instr} {distance : Int} (hf : IsFiller filler)
    (h : fitsInt32 distance = true) :
    EndsInBranch [] 0xEB [0xE9] distance (encodeAll (filler ++ [.jmp (branchField distance)])) := by
  refine ⟨encodeAll filler, hf.nopRun, ?_⟩
  rw [encodeAll_append]
  by_cases h8 : -128 ≤ distance ∧ distance ≤ 127
  · rw [if_pos h8, branchField, if_pos (fitsInt8_iff.mpr h8)]
    rfl
  · rw [if_neg h8, branchField, if_neg (mt fitsInt8_iff.mp h8)]
    have hd := fitsInt32_iff.mp h
    exact ⟨hd.1, hd.2, by simp [Instr.encode]⟩

/-- A conditional jump in its shortest form ends in a branch over its distance. -/
theorem endsInBranch_jcc {test : Instr} {filler : List Instr} {cond : Cond} {distance : Int}
    (hf : IsFiller filler) (h : fitsInt32 distance = true) :
    EndsInBranch test.encode cond.shortOpcode [0x0F, cond.nearOpcode] distance
      (encodeAll (test :: filler ++ [.jcc cond (branchField distance)])) := by
  refine ⟨encodeAll filler, hf.nopRun, ?_⟩
  rw [List.cons_append, encodeAll_cons, encodeAll_append]
  by_cases h8 : -128 ≤ distance ∧ distance ≤ 127
  · rw [if_pos h8, branchField, if_pos (fitsInt8_iff.mpr h8)]
    simp [Instr.encode]
  · rw [if_neg h8, branchField, if_neg (mt fitsInt8_iff.mp h8)]
    have hd := fitsInt32_iff.mp h
    exact ⟨hd.1, hd.2, by simp [Instr.encode]⟩

namespace Emits

variable {source : Source} {tables : Array Table} {e : Emission} {done : Installation}
  {c : CompiledProgram}

/-- The final pass worked from the offsets of the compiled program. -/
theorem pass_offset (he : Emits source tables e done c) (k : Nat) :
    e.pass.offset k = c.offset k := by
  obtain ⟨padding, hp⟩ := he.pass_eq
  rw [hp]
  rfl

/-- The final pass gave the offsets of the compiled program. -/
theorem out_offset (he : Emits source tables e done c) (k : Nat) :
    e.out.offset k = c.offset k := by
  rw [PassOutput.offset, he.offsets_eq]
  rfl

/-- The code of a compiled program is as long as the code of its final pass. -/
theorem length_code (he : Emits source tables e done c) : c.code.length = e.out.code.size := by
  obtain ⟨fresh, hw⟩ := he.written_eq
  obtain ⟨hb, _, hsize, _⟩ := writeImage_eq_ok hw
  obtain ⟨hd, _⟩ := Installation.run_frame he.installed_eq
  have himage : c.image.bytes.size = fresh.size := by
    rw [he.image_eq]
    exact hd.size_eq.trans hb.size_eq
  rw [CompiledProgram.code, Array.length_toList, Array.size_extract, he.size_eq]
  rw [he.size_eq] at hsize
  omega

/-- The shape of the offset map of a compiled program. -/
theorem offset_map (he : Emits source tables e done c) :
    c.offsets.size = source.program.size + 1 ∧
    (∀ i j, i ≤ j → j ≤ source.program.size → c.offset i ≤ c.offset j) ∧
    c.offset source.program.size = c.code.length ∧
    ∃ depth, source.frame.IsDepth depth ∧
      c.offset 0 = codeSize (source.frame.prologue depth) ∧
      c.image.HoldsAt 0 (encodeAll (source.frame.prologue depth)) := by
  have hslots : ∀ x ∈ source.program.steps, 1 ≤ x.slots := fun x hx => one_le_slots hx
  obtain ⟨h1, h2, h3, _⟩ := PassOutput.offsets_of_run he.run_eq hslots
  obtain ⟨depth, hd, h4, hprologue⟩ := he.holdsAt_prologue
  rw [Program.slotCount_steps] at h1 h2 h3
  simp only [he.out_offset] at h2 h3 h4
  exact ⟨by rw [← he.offsets_eq, h1], h2, by rw [h3, he.length_code], depth, hd, h4, hprologue⟩

/-- Data that the image holds inside the code is a part of the code. -/
theorem extract_code (he : Emits source tables e done c) {start stop : Nat} {data : List UInt8}
    (h : c.image.HoldsAt start data) (hstop : stop = start + data.length)
    (hle : stop ≤ c.code.length) : c.code.extract start stop = data := by
  subst hstop
  have hcode : c.code = c.image.bytes.toList.take c.size := by
    rw [CompiledProgram.code, Array.toList_extract, List.extract_eq_take_drop, List.drop_zero,
      Nat.sub_zero]
  have hlength : c.code.length = c.size := he.length_code.trans he.size_eq
  have hsize : c.code.length ≤ c.image.size := by
    rw [hcode, List.length_take]
    exact Nat.min_le_right _ _
  have hread := (Image.holdsAt_iff_extract (by omega)).mp h
  rw [Array.toList_extract, List.extract_eq_take_drop] at hread
  rw [hcode, List.extract_eq_take_drop, List.drop_take, List.take_take,
    Nat.min_eq_left (by omega)]
  exact hread

/-- The bytes of a slot without patchable fields are the instructions it was lowered to. -/
theorem slotCode_eq (he : Emits source tables e done c) {before after : List Step} {s : Step}
    {depth : UInt32} {operation : Operation} {epilogue : Option Nat} {fragment : Fragment}
    (hs : source.program.steps = before ++ s :: after) (h1 : s.slots = 1)
    (hh : e.out.Holds e.pass depth before s operation epilogue fragment)
    (hop : ∀ id, operation ≠ .tailCall id) :
    c.slotCode (slotCount before) = encodeAll fragment.code := by
  have hcode := he.holdsAt_step hs hh hop
  have hstop := hh.stop_eq 1 (Nat.le_refl _) (by omega)
  have hlast : slotCount before + 1 ≤ source.program.size := h1 ▸ Program.slots_le hs
  obtain ⟨_, hmono, hend, _⟩ := he.offset_map
  have hle := hmono _ _ hlast (Nat.le_refl _)
  rw [hend] at hle
  rw [he.out_offset, he.out_offset] at hstop
  rw [he.out_offset] at hcode
  exact he.extract_code hcode (by rw [hstop, length_encodeAll]) hle

/-- A slot that is no tail call, together with what it was lowered to. -/
theorem slot_cases (he : Emits source tables e done c) {k : Nat} {i : Insn}
    (hv : source.program.Visits k i) (hw : i.isWideLoad = false)
    (hop : ∀ operation, i.operation = .ok operation → ∀ id, operation ≠ .tailCall id) :
    ∃ before s after depth operation epilogue fragment,
      source.program.steps = before ++ s :: after ∧ slotCount before = k ∧ s.index = k ∧
      i.operation = .ok operation ∧ e.out.Holds e.pass depth before s operation epilogue fragment ∧
      c.slotCode k = encodeAll fragment.code := by
  obtain ⟨before, s, after, hs, hk, hi, h1, ho⟩ := hv.split hw
  have hslots : ∀ x ∈ source.program.steps, 1 ≤ x.slots := fun x hx => one_le_slots hx
  obtain ⟨depth, operation, epilogue, fragment, _, hh⟩ :=
    PassOutput.holds_of_run he.run_eq hs hslots
  have hoperation : i.operation = .ok operation := ho.symm.trans hh.operation_eq
  refine ⟨before, s, after, depth, operation, epilogue, fragment, hs, hk, hi, hoperation, hh, ?_⟩
  rw [← hk]
  exact he.slotCode_eq hs h1 hh (hop operation hoperation)

/-- The distance of a jump leads from the end of its slot to the slot that it names. -/
theorem jumpDistance_eq (he : Emits source tables e done c) {k : Nat} {off : Int16} {distance : Int}
    (h : e.pass.jumpDistance k off = .ok distance) :
    ∃ target : Nat, (target : Int) = k + 1 + off.toInt ∧ target ≤ source.program.size ∧
      (c.offset (k + 1) : Int) + distance = c.offset target := by
  obtain ⟨target, ht, hlt, hd⟩ := Pass.jumpDistance_eq_ok h
  have hsize := (Pass.run_eq_ok he.run_eq).1
  have hslots : e.pass.slots = source.program.size := by
    obtain ⟨padding, hp⟩ := he.pass_eq
    rw [hp]
    rfl
  rw [he.pass_offset, he.pass_offset] at hd
  exact ⟨target, ht, by omega, hd⟩

/-- What the code of a jump consists of. -/
theorem jump_exact (he : Emits source tables e done c) {k : Nat} {i : Insn}
    (hv : source.program.Visits k i) (hj : i.isJump = true) :
    ∃ distance, (i.off = -1 ∧ distance = -2 ∨
        i.off ≠ -1 ∧ e.pass.jumpDistance k i.off = .ok distance) ∧
      ((distance = 0 ∧ NopRun (c.slotCode k)) ∨
        EndsInBranch [] 0xEB [0xE9] distance (c.slotCode k)) := by
  have hop := Insn.operation_of_isJump hj
  have hcls := Insn.cls_of_isJump hj
  obtain ⟨_, s, _, _, _, _, _, _, _, hi, ho, hh, hcode⟩ :=
    he.slot_cases hv (Insn.not_isWideLoad_of_cls (.inl hcls)) (by
      intro operation ho id hc
      rw [hop, hc] at ho
      cases ho)
  obtain rfl := Except.ok.inj (hop.symm.trans ho)
  obtain ⟨distance, code, hd, hjump, hf⟩ := Pass.lower_jump hh.lowered
  rw [hi] at hd
  rw [hcode, hf]
  refine ⟨distance, hd, ?_⟩
  rcases Pass.jump_eq_ok hjump with ⟨_, hz, hfill⟩ | ⟨h32, filler, hfill, rfl⟩
  · exact .inl ⟨hz, hfill.nopRun⟩
  · exact .inr (endsInBranch_jmp hfill h32)

/-- What the code of a conditional jump consists of. -/
theorem branch_exact (he : Emits source tables e done c) {k : Nat} {i : Insn}
    (hv : source.program.Visits k i) (hb : i.isBranch = true) :
    ∃ cond size dst src distance, condition? i.op = some cond ∧
      e.pass.jumpDistance k i.off = .ok distance ∧
      EndsInBranch (Pass.compare cond size dst src).encode (Pass.nativeCond cond).shortOpcode
        [0x0F, (Pass.nativeCond cond).nearOpcode] distance (c.slotCode k) := by
  have hcls := Insn.cls_of_isBranch hb
  obtain ⟨_, s, _, _, _, _, _, _, _, hi, ho, hh, hcode⟩ :=
    he.slot_cases hv (Insn.not_isWideLoad_of_cls hcls) (by
      intro operation ho id hc
      obtain ⟨_, _, _, _, _, rfl⟩ := Insn.operation_of_isBranch hb ho
      cases hc)
  obtain ⟨cond, size, dst, src, hcond, rfl⟩ := Insn.operation_of_isBranch hb ho
  obtain ⟨distance, filler, hd, h32, hfill, hf⟩ := Pass.lower_branch hh.lowered
  rw [hi] at hd
  rw [hcode, hf]
  exact ⟨cond, size, dst, src, distance, hcond, hd, endsInBranch_jcc hfill h32⟩

/-- What the code of an exit behind the first one consists of. -/
theorem exit_exact (he : Emits source tables e done c) {k first : Nat} {i : Insn}
    (hv : source.program.Visits k i) (hi : i.isExit = true)
    (hfirst : source.program.IsFirstExit first) (hne : k ≠ first) :
    ∃ distance : Int, (c.offset (k + 1) : Int) + distance = c.offset first ∧
      EndsInBranch [] 0xEB [0xE9] distance (c.slotCode k) := by
  have hop := Insn.operation_eq_exit.mpr hi
  have hcls := Insn.cls_of_isExit hi
  obtain ⟨before, s, after, _, _, _, _, hs, hk, hindex, ho, hh, hcode⟩ :=
    he.slot_cases hv (Insn.not_isWideLoad_of_cls (.inl hcls)) (by
      intro operation ho id hc
      rw [hop, hc] at ho
      cases ho)
  obtain rfl := Except.ok.inj (hop.symm.trans ho)
  rcases hh.epilogue_eq with ⟨_, hnone⟩ | ⟨front, x, back, rfl, hfront, hx, hsome⟩
  · have hexit : s.IsExit := hh.operation_eq
    have heq := hfirst.eq_slotCount hs hexit hnone
    omega
  · rw [List.append_assoc, List.cons_append] at hs
    have heq := hfirst.eq_slotCount hs hx hfront
    rcases Pass.lower_exit hh.lowered with ⟨hn, _⟩ | ⟨start, distance, filler, hstart, hd, h32, hf, hc⟩
    · rw [hn] at hsome
      cases hsome
    · obtain rfl := Option.some.inj (hstart.symm.trans hsome)
      rw [hindex, he.pass_offset, he.out_offset, ← heq] at hd
      rw [hcode, hc]
      exact ⟨distance, hd, endsInBranch_jmp hf h32⟩

end Emits

/-- The branches of a compiled program are exact. -/
structure ExactBranches (program : Program) (c : CompiledProgram) : Prop where
  /-- The offset map has one entry per slot and one for the end. -/
  size_eq : c.offsets.size = program.size + 1
  /-- The offset map never goes down. -/
  mono : ∀ i j, i ≤ j → j ≤ program.size → c.offset i ≤ c.offset j
  /-- The code starts with the prologue, and the first slot starts behind it. -/
  start_eq : ∃ depth, (Frame.ofProgram program).IsDepth depth ∧
    c.offset 0 = codeSize ((Frame.ofProgram program).prologue depth) ∧
    c.code.extract 0 (c.offset 0) = encodeAll ((Frame.ofProgram program).prologue depth)
  /-- The last slot ends with the code. -/
  stop_eq : c.offset program.size = c.code.length
  /-- A jump leads to the slot it names, or it is left out because it leads to its own end. -/
  jump : ∀ k i, program.Visits k i → i.isJump = true → i.off ≠ -1 →
    ∃ target : Nat, (target : Int) = k + 1 + i.off.toInt ∧ target ≤ program.size ∧
      ((∃ distance : Int, (c.offset (k + 1) : Int) + distance = c.offset target ∧
          EndsInBranch [] 0xEB [0xE9] distance (c.slotCode k)) ∨
        (NopRun (c.slotCode k) ∧ c.offset target = c.offset (k + 1)))
  /-- A jump to itself goes two bytes back. -/
  selfJump : ∀ k i, program.Visits k i → i.isJump = true → i.off = -1 →
    ∃ filler, NopRun filler ∧ c.slotCode k = filler ++ [0xEB, 0xFE]
  /-- A conditional jump is a comparison and a branch to the slot it names. -/
  branch : ∀ k i, program.Visits k i → i.isBranch = true →
    ∃ target : Nat, (target : Int) = k + 1 + i.off.toInt ∧ target ≤ program.size ∧
      ∃ cond size dst src distance, condition? i.op = some cond ∧
        (c.offset (k + 1) : Int) + distance = c.offset target ∧
        EndsInBranch (Pass.compare cond size dst src).encode (Pass.nativeCond cond).shortOpcode
          [0x0F, (Pass.nativeCond cond).nearOpcode] distance (c.slotCode k)
  /-- A later exit leads to the first exit. -/
  exit : ∀ k i first, program.Visits k i → i.isExit = true → program.IsFirstExit first →
    k ≠ first → ∃ distance : Int, (c.offset (k + 1) : Int) + distance = c.offset first ∧
      EndsInBranch [] 0xEB [0xE9] distance (c.slotCode k)

/-- Every compiled program has exact branches. -/
theorem exactBranches_of_compiles {config : Config} {program : Program} {c : CompiledProgram}
    (h : Compiles config program c) : ExactBranches program c := by
  obtain ⟨resolve, tables, e, done, he⟩ := h.emits
  obtain ⟨hsize, hmono, hstop, depth, hd, hstart, hprologue⟩ := he.offset_map
  refine ⟨hsize, hmono, ⟨depth, hd, hstart, ?_⟩, hstop, ?_, ?_, ?_, ?_⟩
  · have hle := hmono 0 program.size (by omega) (Nat.le_refl _)
    exact he.extract_code hprologue (by rw [hstart, length_encodeAll, Nat.zero_add]; rfl)
      (by rw [← hstop]; exact hle)
  · intro k i hv hj hoff
    obtain ⟨distance, ⟨hself, _⟩ | ⟨_, hd⟩, hcode⟩ := he.jump_exact hv hj
    · exact absurd hself hoff
    · obtain ⟨target, ht, hle, hreach⟩ := he.jumpDistance_eq hd
      refine ⟨target, ht, hle, ?_⟩
      rcases hcode with ⟨rfl, hnops⟩ | hbranch
      · exact .inr ⟨hnops, by omega⟩
      · exact .inl ⟨distance, hreach, hbranch⟩
  · intro k i hv hj hoff
    obtain ⟨distance, ⟨_, rfl⟩ | ⟨hself, _⟩, hcode⟩ := he.jump_exact hv hj
    · rcases hcode with ⟨hz, _⟩ | ⟨filler, hnops, hbytes⟩
      · cases hz
      · exact ⟨filler, hnops, hbytes⟩
    · exact absurd hoff hself
  · intro k i hv hb
    obtain ⟨cond, size, dst, src, distance, hc, hd, hcode⟩ := he.branch_exact hv hb
    obtain ⟨target, ht, hle, hreach⟩ := he.jumpDistance_eq hd
    exact ⟨target, ht, hle, cond, size, dst, src, distance, hc, hreach, hcode⟩
  · intro k i first hv hi hfirst hne
    exact he.exit_exact hv hi hfirst hne

/-- A conditional jump over the first exit, a jump to the next slot, a jump over a jump to itself,
and a second exit. -/
def jumpingProgram : Program where
  name := "jumping"
  insns := [⟨0x15, 1, 0, 1, 7⟩, ⟨0x95, 0, 0, 0, 0⟩, ⟨0x05, 0, 0, 0, 0⟩, ⟨0x05, 0, 0, 1, 0⟩,
    ⟨0x05, 0, 0, -1, 0⟩, ⟨0x95, 0, 0, 0, 0⟩]

/-- The branches of the program are exact: the jump to the next slot is left out, and the second
exit goes back eight bytes to the first. -/
theorem exactBranches_jumpingProgram :
    ∃ c, Compiles {} jumpingProgram c ∧ c.offsets = #[11, 17, 19, 19, 21, 23, 25] ∧
      c.code = [0x0F, 0x1F, 0x44, 0x00, 0x00, 0x66, 0x90, 0x55, 0x48, 0x89, 0xE5,
        0x48, 0x83, 0xFF, 0x07, 0x74, 0x02, 0xC9, 0xC3, 0xEB, 0x02, 0xEB, 0xFE, 0xEB, 0xF8] ∧
      ExactBranches jumpingProgram c := by
  have h : ((compile {} jumpingProgram (fun _ => none) #[] fun size =>
      .ok (.blank 0x1000 size)).program?.map fun c => (c.offsets, c.code)) =
        some (#[11, 17, 19, 19, 21, 23, 25], [0x0F, 0x1F, 0x44, 0x00, 0x00, 0x66, 0x90, 0x55, 0x48,
          0x89, 0xE5, 0x48, 0x83, 0xFF, 0x07, 0x74, 0x02, 0xC9, 0xC3, 0xEB, 0x02, 0xEB, 0xFE, 0xEB,
          0xF8]) := by
    decide +kernel
  obtain ⟨c, hc, hcode⟩ := Option.map_eq_some_iff.mp h
  have hcompiles : Compiles {} jumpingProgram c := .atOnce (Compilation.program?_eq_some.mp hc)
  exact ⟨c, hcompiles, congrArg Prod.fst hcode, congrArg Prod.snd hcode,
    exactBranches_of_compiles hcompiles⟩

end NativeForge
