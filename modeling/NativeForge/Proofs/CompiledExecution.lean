import NativeForge.Proofs.BranchTargets
import NativeForge.Proofs.FrameExecution
import NativeForge.Proofs.LoweredConditions

/-!
# Compiled programs compute

The code of a compiled program computes what the interpreter of slots computes. The proof follows
the interpreter slot by slot: at every slot that is reached the native registers hold the virtual
ones and the frame stands as the prologue built it, and the code of the slot keeps it so.
-/

namespace NativeForge

open X64 Virtual Target TailCall

namespace Virtual

/-- The slot computes in its destination register or compares it. -/
def Insn.usesDst (i : Insn) : Bool := i.isWideLoad || i.cls == 4 || i.cls == 7 || i.isBranch

/-- The slot reads its source register. -/
def Insn.usesSrc (i : Insn) : Bool :=
  i.fromRegister &&
    (i.isBranch || ((i.cls == 4 || i.cls == 7) && i.op != 0x80 && i.op != 0xD0))

/-- The program computes in the ten general registers only, and no jump enters the second slot of a
wide load. -/
structure Program.IsPlain (p : Program) : Prop where
  /-- Destinations are general. -/
  dst_le : ∀ k i, p.Visits k i → i.usesDst = true → i.dst ≤ 9
  /-- Sources are general. -/
  src_le : ∀ k i, p.Visits k i → i.usesSrc = true → i.src ≤ 9
  /-- Jumps lead to slots that open an operation, or leave the program. -/
  target_ne : ∀ k i l j, p.Visits k i → (i.isJump || i.isBranch) = true → p.Visits l j →
    j.isWideLoad = true → (k : Int) + 1 + i.off.toInt ≠ l + 1

/-- The slots that open an operation of the program. -/
def Program.visited (p : Program) : List (Nat × Insn) :=
  p.steps.filterMap fun s => p.insns[s.index]?.map fun i => (s.index, i)

/-- The list holds exactly the slots that are visited. -/
theorem Program.mem_visited {p : Program} {k : Nat} {i : Insn} :
    (k, i) ∈ p.visited ↔ p.Visits k i := by
  unfold visited Visits
  rw [List.mem_filterMap]
  constructor
  · rintro ⟨s, hs, h⟩
    obtain ⟨j, hj, heq⟩ := Option.map_eq_some_iff.mp h
    cases heq
    exact ⟨⟨s, hs, rfl⟩, hj⟩
  · rintro ⟨⟨s, hs, rfl⟩, hi⟩
    exact ⟨s, hs, by rw [hi, Option.map_some]⟩

/-- Whether a program is plain can be seen from its visited slots. -/
theorem Program.isPlain_iff {p : Program} : p.IsPlain ↔
    (∀ x ∈ p.visited, (x.2.usesDst = true → x.2.dst ≤ 9) ∧ (x.2.usesSrc = true → x.2.src ≤ 9)) ∧
    ∀ x ∈ p.visited, (x.2.isJump || x.2.isBranch) = true → ∀ y ∈ p.visited,
      y.2.isWideLoad = true → (x.1 : Int) + 1 + x.2.off.toInt ≠ y.1 + 1 := by
  constructor
  · rintro ⟨hd, hs, ht⟩
    exact ⟨fun x hx => ⟨hd _ _ (mem_visited.mp hx), hs _ _ (mem_visited.mp hx)⟩,
      fun x hx hj y hy hw => ht _ _ _ _ (mem_visited.mp hx) hj (mem_visited.mp hy) hw⟩
  · rintro ⟨hr, ht⟩
    exact ⟨fun k i hv => (hr (k, i) (mem_visited.mpr hv)).1,
      fun k i hv => (hr (k, i) (mem_visited.mpr hv)).2,
      fun k i l j hv hj hl hw => ht (k, i) (mem_visited.mpr hv) hj (l, j) (mem_visited.mpr hl) hw⟩

instance (p : Program) : Decidable p.IsPlain := decidable_of_iff _ Program.isPlain_iff.symm

/-- A step of the program starts at the slot, or the program ends there. -/
def Program.IsBoundary (p : Program) (k : Nat) : Prop :=
  ∃ before after, p.steps = before ++ after ∧ slotCount before = k

/-- Every slot of steps of one or two slots starts a step or is the second slot of one. -/
theorem slotCount_split {steps : List Step} (h : ∀ s ∈ steps, s.slots = 1 ∨ s.slots = 2) {t : Nat}
    (ht : t ≤ slotCount steps) :
    (∃ before after, steps = before ++ after ∧ slotCount before = t) ∨
      ∃ before s after, steps = before ++ s :: after ∧ s.slots = 2 ∧ t = slotCount before + 1 := by
  induction steps generalizing t with
  | nil => exact .inl ⟨[], [], rfl, (Nat.le_zero.mp ht).symm⟩
  | cons s rest ih =>
    by_cases hz : t = 0
    · exact .inl ⟨[], s :: rest, rfl, hz.symm⟩
    · rw [slotCount_cons] at ht
      by_cases hin : t < s.slots
      · have hs := h s (by simp)
        exact .inr ⟨[], s, rest, rfl, by omega, by simp only [slotCount_nil]; omega⟩
      · rcases ih (fun x hx => h x (by simp [hx])) (show t - s.slots ≤ slotCount rest by omega) with
          ⟨before, after, rfl, hc⟩ | ⟨before, x, after, rfl, hx, hc⟩
        · exact .inl ⟨s :: before, after, rfl, by rw [slotCount_cons]; omega⟩
        · exact .inr ⟨s :: before, x, after, rfl, hx, by rw [slotCount_cons]; omega⟩

/-- Every slot of a program starts a step or is the second slot of one. -/
theorem Program.isBoundary_or_second (p : Program) {t : Nat} (ht : t ≤ p.size) :
    p.IsBoundary t ∨
      ∃ before s after, p.steps = before ++ s :: after ∧ s.slots = 2 ∧ t = slotCount before + 1 := by
  have hslots : ∀ s ∈ p.steps, s.slots = 1 ∨ s.slots = 2 := by
    intro s hs
    obtain ⟨before, after, hsteps⟩ := List.append_of_mem hs
    obtain ⟨_, _, _, _, _, ⟨_, _, h1, _⟩ | ⟨_, h2, _⟩ | ⟨_, h1, _⟩⟩ := stepsFrom_split hsteps <;> omega
  exact slotCount_split hslots (by rwa [p.slotCount_steps])

/-- A slot of a program starts a step, or it is the second slot of a wide load. -/
theorem Program.isBoundary_or (p : Program) {t : Nat} (ht : t ≤ p.size) :
    p.IsBoundary t ∨ ∃ l j, p.Visits l j ∧ j.isWideLoad = true ∧ t = l + 1 := by
  rcases p.isBoundary_or_second ht with ⟨before, after, hs, hc⟩ | ⟨before, s, after, hs, h2, hc⟩
  · exact .inl ⟨before, after, hs, hc⟩
  · obtain ⟨hindex, j, rest, hdrop, _, hcase⟩ := stepsFrom_split hs
    rw [Nat.zero_add] at hindex
    refine .inr ⟨slotCount before, j, ⟨⟨s, by simp [hs], hindex⟩, ?_⟩, ?_, hc⟩
    · rw [← List.head?_drop, hdrop]
      rfl
    · rcases hcase with ⟨_, _, h1, _⟩ | ⟨hj, _⟩ | ⟨_, h1, _⟩
      · omega
      · exact hj
      · omega

/-- The step that starts at a slot, and how it was read. -/
theorem Program.IsBoundary.step {p : Program} {k : Nat} {i : Insn} (h : p.IsBoundary k)
    (hi : p.insns[k]? = some i) :
    ∃ before s after, p.steps = before ++ s :: after ∧ slotCount before = k ∧ s.index = k ∧
      p.Visits k i ∧
      ((i.isWideLoad = true ∧ s.operation = .error .truncatedWideLoad) ∨
        (i.isWideLoad = true ∧ s.slots = 2 ∧ ∃ next, p.insns[k + 1]? = some next ∧
          s.operation = i.wideOperation next) ∨
        (i.isWideLoad = false ∧ s.slots = 1 ∧ s.operation = i.operation)) := by
  obtain ⟨before, after, hs, hk⟩ := h
  cases after with
  | nil =>
    have hcount : slotCount p.steps = p.insns.length := slotCount_stepsFrom 0 _
    rw [List.append_nil] at hs
    rw [hs, hk] at hcount
    rw [List.getElem?_eq_none (by omega)] at hi
    cases hi
  | cons s after =>
    obtain ⟨hindex, j, rest, hdrop, _, hcase⟩ := stepsFrom_split hs
    rw [Nat.zero_add, hk] at hindex
    rw [hk] at hdrop
    have hj : p.insns[k]? = some j := by
      rw [← List.head?_drop, hdrop]
      rfl
    obtain rfl : i = j := Option.some.inj (hi.symm.trans hj)
    refine ⟨before, s, after, hs, hk, hindex, ⟨⟨s, by simp [hs], hindex⟩, hi⟩, ?_⟩
    rcases hcase with ⟨hw, _, _, ho⟩ | ⟨hw, h2, next, tail, rfl, ho⟩ | hone
    · exact .inl ⟨hw, ho⟩
    · refine .inr (.inl ⟨hw, h2, next, ?_, ho⟩)
      have hnext : (p.insns.drop k)[1]? = some next := by rw [hdrop]; rfl
      rwa [List.getElem?_drop] at hnext
    · exact .inr (.inr hone)

/-- The next step starts behind a step. -/
theorem Program.isBoundary_next {p : Program} {before after : List Step} {s : Step}
    (h : p.steps = before ++ s :: after) : p.IsBoundary (slotCount before + s.slots) :=
  ⟨before ++ [s], after, by simp [h], by simp [slotCount_append]⟩

/-- A register is found by its number. -/
theorem VReg.number_of_index {index : UInt8} {r : VReg} (h : VReg.ofIndex? index = some r) :
    r.number = index.toNat := by
  have hall : ∀ n : Fin 11, (VReg.all.take 11)[n.val]?.map VReg.number = some n.val := by decide
  have hlt : index.toNat < 11 := (List.getElem?_eq_some_iff.mp h).1
  have hn := hall ⟨index.toNat, hlt⟩
  rw [show (VReg.all.take 11)[index.toNat]? = some r from h] at hn
  exact Option.some.inj hn

/-- A register that a number up to nine names is general. -/
theorem VReg.isGeneral_of_index {index : UInt8} {r : VReg} (h : VReg.ofIndex? index = some r)
    (hle : index ≤ 9) : r.IsGeneral := by
  have hn : r.number ≤ 9 := by
    rw [number_of_index h]
    exact UInt8.le_iff_toNat_le.mp hle
  revert hn
  unfold IsGeneral
  cases r <;> decide

/-- A register that a slot computes in is saved, if the caller keeps a value there. -/
theorem Program.mem_saved {p : Program} {k : Nat} {i : Insn} {dst : VReg} (hv : p.Visits k i)
    (hd : VReg.ofIndex? i.dst = some dst) (hc : dst ∈ VReg.calleeSaved) :
    dst ∈ (Frame.ofProgram p).saved := by
  refine List.mem_filter.mpr ⟨hc, List.any_eq_true.mpr ⟨i, List.mem_of_getElem? hv.2, ?_⟩⟩
  rw [VReg.number_of_index hd]
  simp

/-- The second operand is general if the source field is. -/
theorem Insn.isGeneral_of_operand {i : Insn} {src : Operand} (h : i.operand = .ok src)
    (hle : i.fromRegister = true → i.src ≤ 9) : src.IsGeneral := by
  unfold operand at h
  split at h
  · rename_i hr
    obtain ⟨r, hreg, h⟩ := bind_eq_ok.mp h
    obtain rfl := pure_eq_ok.mp h
    exact VReg.isGeneral_of_index (register_eq_ok.mp hreg) (hle hr)
  · cases h
    trivial

/-- An arithmetic slot on general registers is read as arithmetic on general registers. -/
theorem Insn.Reads.isArithmetic {i : Insn} {size : OpSize} {dst : VReg} {operation : Operation}
    (h : Reads i size dst operation) (hd : dst.IsGeneral)
    (hsrc : i.op ≠ 0x80 → i.op ≠ 0xD0 → i.fromRegister = true → i.src ≤ 9) :
    operation.IsArithmetic := by
  have hgeneral : ∀ {src : Operand}, i.operand = .ok src → i.op ≠ 0x80 ∧ i.op ≠ 0xD0 →
      src.IsGeneral := fun ho hne => isGeneral_of_operand ho (hsrc hne.1 hne.2)
  cases h with
  | @alu op src ho hs =>
    refine ⟨hd, hgeneral hs ?_⟩
    rcases aluOp?_eq_some ho with ⟨hc, _⟩ | ⟨hc, _⟩ | ⟨hc, _⟩ | ⟨hc, _⟩ | ⟨hc, _⟩ <;> rw [hc] <;> decide
  | @shift op src ho hs =>
    refine ⟨hd, hgeneral hs ?_⟩
    rcases shiftOp?_eq_some ho with ⟨hc, _⟩ | ⟨hc, _⟩ | ⟨hc, _⟩ <;> rw [hc] <;> decide
  | move hc hs => exact ⟨hd, hgeneral hs (by rw [hc]; decide)⟩
  | negate hc => exact hd
  | multiply hc hs => exact ⟨hd, hgeneral hs (by rw [hc]; decide)⟩
  | quotient hc hs => exact ⟨hd, hgeneral hs (by rw [hc]; decide)⟩
  | remainder hc hs => exact ⟨hd, hgeneral hs (by rw [hc]; decide)⟩
  | convert hc hw =>
    refine ⟨hd, ?_⟩
    rcases hw with ⟨_, rfl⟩ | ⟨_, rfl⟩ | ⟨_, rfl⟩ <;> decide

/-- A slot of a jump class that the interpreter decides is a conditional jump. -/
theorem Insn.isBranch_of_jumps {i : Insn} {regs : Registers} {holds : Bool}
    (hcls : i.cls = 5 ∨ i.cls = 6) (h : i.jumps regs = some holds) : i.isBranch = true := by
  unfold jumps at h
  obtain ⟨a, _, h⟩ := Option.bind_eq_some_iff.mp h
  obtain ⟨b, _, h⟩ := Option.bind_eq_some_iff.mp h
  have hcond : (condition? i.op).isSome = true := by
    split at h <;> rw [conditionResult_eq] at h <;>
      obtain ⟨cond, hc, _⟩ := Option.map_eq_some_iff.mp h <;> rw [hc] <;> rfl
  unfold isBranch
  rw [hcond]
  rcases hcls with hcls | hcls <;> simp [hcls]

/-- What the interpreter does at a slot, by the kind of the slot. -/
inductive Insn.Meets (i : Insn) (p : Program) (k : Nat) (regs : Registers) : Event → Prop
  | wide {next : Insn} {dst : VReg} (hw : i.isWideLoad = true) (hn : p.insns[k + 1]? = some next)
      (hd : VReg.ofIndex? i.dst = some dst) :
      Meets i p k regs (.goto (k + 2) (regs.set dst (next.imm.toBitVec ++ i.imm.toBitVec)))
  | compute (size : OpSize) {dst : VReg} {v : BitVec 64} (hw : i.isWideLoad = false)
      (hcls : i.cls = 4 ∨ i.cls = 7) (ho : i.operation = i.arithmetic size)
      (hd : VReg.ofIndex? i.dst = some dst)
      (hv : ∀ operation, Reads i size dst operation → operation.result regs = some (dst, v)) :
      Meets i p k regs (.goto (k + 1) (regs.set dst v))
  | jump {event : Event} (hj : i.isJump = true) (h : Program.jumpFrom k i.off regs = some event) :
      Meets i p k regs event
  | exit (he : i.isExit = true) : Meets i p k regs (.exit (regs .r0))
  | taken {event : Event} (hb : i.isBranch = true) (hj : i.jumps regs = some true)
      (h : Program.jumpFrom k i.off regs = some event) : Meets i p k regs event
  | passed (hb : i.isBranch = true) (hj : i.jumps regs = some false) :
      Meets i p k regs (.goto (k + 1) regs)

/-- A slot at which the interpreter goes on is of one of the kinds that it knows. -/
theorem Program.meets_of_interpretSlot {p : Program} {k : Nat} {regs : Registers} {event : Event}
    (h : p.interpretSlot k regs = some event) :
    ∃ i, p.insns[k]? = some i ∧ i.Meets p k regs event := by
  unfold interpretSlot at h
  obtain ⟨i, hi, h⟩ := Option.bind_eq_some_iff.mp h
  refine ⟨i, hi, ?_⟩
  split at h
  · rename_i hw
    obtain ⟨next, hn, h⟩ := Option.bind_eq_some_iff.mp h
    obtain ⟨dst, hd, h⟩ := Option.bind_eq_some_iff.mp h
    cases h
    exact .wide hw hn hd
  · rename_i hw
    rw [Bool.not_eq_true] at hw
    split at h
    · rename_i hcls
      obtain ⟨dst, hd, h⟩ := Option.bind_eq_some_iff.mp h
      obtain ⟨v, hv, h⟩ := Option.bind_eq_some_iff.mp h
      cases h
      -- byte order conversion is no operation on 64 bits
      have hop : i.op ≠ 0xD0 := by
        intro hop
        have hnone : ∀ b, arithmeticResult (0xD0 : UInt8) (regs dst) b = none := fun _ => rfl
        rw [Insn.result64, hop, if_neg (by decide)] at hv
        simp [hnone] at hv
      refine .compute .wide hw (.inr hcls) (by simp [Insn.operation, hcls]) hd fun operation hr => ?_
      rw [Insn.result64_eq hr hop, hv, Option.map_some]
    · split at h
      · rename_i hcls
        obtain ⟨dst, hd, h⟩ := Option.bind_eq_some_iff.mp h
        obtain ⟨v, hv, h⟩ := Option.bind_eq_some_iff.mp h
        cases h
        refine .compute .narrow hw (.inl hcls) (by simp [Insn.operation, hcls]) hd
          fun operation hr => ?_
        rw [Insn.result32_eq hr, hv, Option.map_some]
      · split at h
        · rename_i hj
          exact .jump (by simp [Insn.isJump, hj.1, hj.2]) h
        · split at h
          · rename_i he
            cases h
            exact .exit (by simp [Insn.isExit, he.1, he.2])
          · split at h
            · rename_i hcls
              obtain ⟨holds, hj, h⟩ := Option.bind_eq_some_iff.mp h
              have hb := Insn.isBranch_of_jumps hcls hj
              cases holds with
              | true => exact .taken hb hj h
              | false =>
                cases h
                exact .passed hb hj
            · cases h

end Virtual

namespace Emits

variable {source : Source} {tables : Array Table} {e : Emission} {done : Installation}
  {c : CompiledProgram}

/-- Code that the image holds inside the code of the program is executed from there. -/
theorem hasCode (he : Emits source tables e done c) {start : Nat} {instrs : List Instr}
    (h : c.image.HoldsAt start (encodeAll instrs))
    (hle : start + codeSize instrs ≤ c.code.length) : HasCode c.code start instrs := by
  have hextract := he.extract_code h
    (show start + codeSize instrs = _ by rw [length_encodeAll]) hle
  rw [List.extract_eq_take_drop] at hextract
  exact ⟨(c.code.drop start).drop (start + codeSize instrs - start),
    by rw [← hextract, List.take_append_drop]⟩

/-- The code of a step that is no tail call is executed at the offset of its slot and ends at the
offset of the next step. -/
theorem hasCode_step (he : Emits source tables e done c) {before after : List Step} {s : Step}
    {operation : Operation} (hs : source.program.steps = before ++ s :: after)
    (ho : s.operation = .ok operation) (hop : ∀ id, operation ≠ .tailCall id) :
    ∃ depth epilogue fragment,
      e.out.Holds e.pass depth before s operation epilogue fragment ∧
      HasCode c.code (c.offset (slotCount before)) fragment.code ∧
      c.offset (slotCount before + s.slots) =
        c.offset (slotCount before) + codeSize fragment.code := by
  have hslots : ∀ x ∈ source.program.steps, 1 ≤ x.slots := fun x hx => one_le_slots hx
  obtain ⟨depth, other, epilogue, fragment, _, hh⟩ :=
    PassOutput.holds_of_run he.run_eq hs hslots
  obtain rfl := Except.ok.inj (ho.symm.trans hh.operation_eq)
  have hcode := he.holdsAt_step hs hh hop
  have hstop := hh.stop_eq s.slots (hslots s (by simp [hs])) (Nat.le_refl _)
  rw [he.out_offset, he.out_offset] at hstop
  rw [he.out_offset] at hcode
  obtain ⟨_, hmono, hend, _⟩ := he.offset_map
  have hle := hmono _ _ (Program.slots_le hs) (Nat.le_refl _)
  rw [hend] at hle
  exact ⟨depth, epilogue, fragment, hh, he.hasCode hcode (by omega), hstop⟩

end Emits

/-- After a register was set, the native registers hold the virtual ones with that register set. -/
theorem Agrees.sets {s t : State} {regs : Registers} {dst : VReg} {v : BitVec 64}
    (ha : Agrees s regs) (hd : Sets s t dst.native v) : Agrees t (regs.set dst v) := by
  intro r hr
  unfold Registers.set
  split
  · rename_i heq
    rw [heq, hd.dst_eq]
  · rename_i hne
    rw [hd.regs_eq _ (fun heq => hne (VReg.native_inj.mp heq)) hr.native_ne.2.2, ha r hr]

/-- A run of a program at a slot and a run of its code stand together: the slot starts a step, the
frame stands as it was built, and the native registers hold the virtual ones. -/
structure InStep (program : Program) (depth : UInt32) (entry : State) (k : Nat) (regs : Registers)
    (s : State) : Prop where
  /-- The slot starts a step. -/
  boundary : program.IsBoundary k
  /-- The frame stands. -/
  stands : (Frame.ofProgram program).Stands depth entry s
  /-- The native registers hold the virtual ones. -/
  agrees : Agrees s regs

/-- The processor is at a return, with a value, and the caller gets its state back. -/
structure Returns (code : List UInt8) (entry : State) (count : Nat) (value : BitVec 64)
    (offset : Nat) (s : State) : Prop where
  /-- The next instruction is the return. -/
  fetch_eq : fetch code offset = some (.ret, offset + 1)
  /-- The accumulator holds the value. -/
  value_eq : s.regs .rax = value
  /-- The state of the caller is restored. -/
  restores : Restores entry s count

section Simulation

variable {config : Config} {program : Program} {resolve : CallSite → Option Address}
  {tables : Array Table} {e : Emission} {done : Installation} {c : CompiledProgram}
  {depth : UInt32} {entry s : State} {k : Nat} {regs : Registers} {before after : List Step}
  {st : Step}

/-- The code of a step that computes sets its destination. -/
theorem reaches_arithmetic (he : Emits (sourceOf config program resolve) tables e done c)
    (hsize : (Frame.ofProgram program).size depth + 16 < 2 ^ 32)
    (hroom : entry.Room ((Frame.ofProgram program).size depth + 16))
    (h : InStep program depth entry k regs s) (hs : program.steps = before ++ st :: after)
    (hk : slotCount before = k) {operation : Operation} (ho : st.operation = .ok operation)
    (ha : operation.IsArithmetic) {dst : VReg} {v : BitVec 64}
    (hv : operation.result regs = some (dst, v))
    (hsaved : dst ∈ VReg.calleeSaved → dst ∈ (Frame.ofProgram program).saved) :
    ∃ t, Reaches c.code (c.offset k) s (c.offset (k + st.slots)) t ∧
      InStep program depth entry (k + st.slots) (regs.set dst v) t := by
  subst hk
  obtain ⟨_, _, fragment, hh, hcode, hstop⟩ := he.hasCode_step hs ho (by
    rintro id rfl
    exact ha)
  obtain ⟨hd, t, ht, hset⟩ :=
    sets_lower hh.lowered ha h.agrees (h.stands.room (by omega) hroom) hv
  rw [hstop]
  exact ⟨t, .execAll hcode (encodable_lower hh.lowered ha.computes) ht, Program.isBoundary_next hs,
    h.stands.sets hsize hd hsaved hset, h.agrees.sets hset⟩

/-- Filler and a jump behind it lead over the distance of the jump. -/
theorem reaches_jmp {code : List UInt8} {start target : Nat} {filler : List Instr} {distance : Int}
    (hcode : HasCode code start (filler ++ [.jmp (branchField distance)])) (hf : IsFiller filler)
    (h32 : fitsInt32 distance = true)
    (ht : ((start + codeSize (filler ++ [.jmp (branchField distance)]) : Nat) : Int) + distance =
      target) : Reaches code start s target s := by
  have hfill := Reaches.execAll hcode.left (encodable_filler hf) (exec_filler hf s)
  refine hfill.trans (Reaches.jump hcode.right trivial
    (by rw [Instr.exec, value_branchField h32]) ?_)
  rw [codeSize_append, codeSize_cons, codeSize_nil] at ht
  omega

/-- The code of a jump leads to the slot that it names. -/
theorem reaches_jump (he : Emits (sourceOf config program resolve) tables e done c)
    (hs : program.steps = before ++ st :: after) (hk : slotCount before = k) (hi : st.index = k)
    (h1 : st.slots = 1) {off : Int16} (ho : st.operation = .ok (.jump off)) {target : Nat}
    (ht : (target : Int) = k + 1 + off.toInt) :
    Reaches c.code (c.offset k) s (c.offset target) s ∧ (target = k ∨ target ≤ program.size) := by
  subst hk
  obtain ⟨_, _, fragment, hh, hcode, hstop⟩ := he.hasCode_step hs ho (by simp)
  rw [h1] at hstop
  obtain ⟨distance, code, hd, hjump, rfl⟩ := Pass.lower_jump hh.lowered
  rcases hd with ⟨rfl, _⟩ | ⟨_, hd⟩
  · -- the slot jumps to itself, which is where the processor already is
    have hself : target = slotCount before := by
      rw [show (-1 : Int16).toInt = -1 from rfl] at ht
      omega
    exact ⟨hself ▸ .refl, .inl hself⟩
  · rw [hi] at hd
    obtain ⟨target', ht', hle, hreach⟩ := he.jumpDistance_eq hd
    obtain rfl : target = target' := by omega
    refine ⟨?_, .inr hle⟩
    rcases Pass.jump_eq_ok hjump with ⟨_, hz, hfill⟩ | ⟨h32, filler, hfill, rfl⟩
    · have hend := Reaches.execAll hcode (encodable_filler hfill) (exec_filler hfill s)
      rw [← hstop] at hend
      rwa [show c.offset target = c.offset (slotCount before + 1) by omega]
    · exact reaches_jmp hcode hfill h32 (by rw [← hstop]; exact hreach)

/-- The code of a conditional jump compares and leads to the slot that it names, or to the next
one. -/
theorem reaches_branch (he : Emits (sourceOf config program resolve) tables e done c)
    (h : InStep program depth entry k regs s) (hs : program.steps = before ++ st :: after)
    (hk : slotCount before = k) (hi : st.index = k) (h1 : st.slots = 1) {cond : Condition}
    {size : OpSize} {dst : VReg} {src : Operand} {off : Int16}
    (ho : st.operation = .ok (.branch cond size dst src off)) (hd : dst.IsGeneral)
    (hsrc : src.IsGeneral) :
    ∃ (t : State) (target : Nat), (target : Int) = k + 1 + off.toInt ∧ target ≤ program.size ∧
      t.regs = s.regs ∧ t.mem = s.mem ∧
      Reaches c.code (c.offset k) s
        (c.offset (if cond.holds (low size (regs dst)) (low size (src.value regs)) then target
          else k + 1)) t := by
  subst hk
  obtain ⟨_, _, fragment, hh, hcode, hstop⟩ := he.hasCode_step hs ho (by simp)
  rw [h1] at hstop
  obtain ⟨distance, filler, hdist, h32, hfill, hf⟩ := Pass.lower_branch hh.lowered
  rw [hi] at hdist
  obtain ⟨target, ht, hle, hreach⟩ := he.jumpDistance_eq hdist
  obtain ⟨f, hcmp, hholds⟩ := exec_compare h.agrees cond size hd hsrc
  rw [hf] at hcode hstop
  refine ⟨s.setFlags (some f), target, ht, hle, rfl, rfl, ?_⟩
  -- the comparison and the filler behind it keep the flags for the branch
  have htest : Encodable (Pass.compare cond size dst src :: filler) := by
    refine encodable_cons.mpr ⟨?_, encodable_filler hfill⟩
    unfold Pass.compare
    repeat' split
    all_goals trivial
  have hfirst := Reaches.execAll hcode.left htest
    ((execAll_next hcmp filler).trans (exec_filler hfill _))
  refine hfirst.trans ?_
  have hjcc : (Instr.jcc (Pass.nativeCond cond) (branchField distance)).exec (s.setFlags (some f)) =
      some (s.setFlags (some f), if (Pass.nativeCond cond).holds f then .jump distance else .next) := by
    rw [Instr.exec, State.flags_setFlags, Option.bind_some, value_branchField h32]
  rw [hholds] at hjcc
  have hlast : codeSize [Instr.jcc (Pass.nativeCond cond) (branchField distance)] =
      (Instr.jcc (Pass.nativeCond cond) (branchField distance)).size := by
    simp
  rw [codeSize_append, hlast, ← Nat.add_assoc] at hstop
  split
  · rename_i hc
    rw [if_pos hc] at hjcc
    exact Reaches.jump hcode.right trivial hjcc (by omega)
  · rename_i hc
    rw [if_neg hc] at hjcc
    have hnext := Reaches.next hcode.right trivial hjcc
    rwa [← hstop] at hnext

/-- The first exit of the program holds the epilogue. -/
theorem hasCode_epilogue (he : Emits (sourceOf config program resolve) tables e done c)
    (hs : program.steps = before ++ st :: after) (ho : st.operation = .ok .exit)
    (hfirst : ∀ x ∈ before, ¬x.IsExit) :
    HasCode c.code (c.offset (slotCount before)) (Frame.ofProgram program).epilogue := by
  obtain ⟨_, _, fragment, hh, hcode, _⟩ := he.hasCode_step hs ho (by simp)
  rcases hh.epilogue_eq with ⟨rfl, _⟩ | ⟨front, x, back, rfl, _, hx, _⟩
  · rcases Pass.lower_exit hh.lowered with ⟨_, hf⟩ | ⟨_, _, _, hsome, _⟩
    · obtain ⟨padding, hpass⟩ := he.pass_eq
      rw [hf, hpass] at hcode
      exact hcode
    · cases hsome
  · exact absurd hx (hfirst x (by simp))

/-- The epilogue returns the value of the first register. -/
theorem reaches_epilogue {code : List UInt8} {start : Nat}
    (hsize : (Frame.ofProgram program).size depth + 16 < 2 ^ 32)
    (hroom : entry.Room ((Frame.ofProgram program).size depth + 16))
    (hcode : HasCode code start (Frame.ofProgram program).epilogue)
    (h : InStep program depth entry k regs s) :
    ∃ offset t, Reaches code start s offset t ∧
      Returns code entry ((Frame.ofProgram program).size depth + 16) (regs .r0) offset t := by
  have hsaved : ∀ r ∈ (Frame.ofProgram program).saved, r ∈ VReg.calleeSaved :=
    fun r hr => (List.mem_filter.mp hr).1
  obtain ⟨t, ht, hv, hrestores⟩ := Frame.exec_epilogue h.stands hsaved hsize hroom
  have hsplit : (Frame.ofProgram program).epilogue =
      ((Frame.ofProgram program).pops ++ [.leave]) ++ [.ret] := by
    rw [Frame.epilogue, List.append_assoc]
    rfl
  rw [hsplit] at hcode
  have hencodable : Encodable ((Frame.ofProgram program).pops ++ [.leave]) := by
    refine encodable_append.mpr ⟨fun i hi => ?_, encodable_cons.mpr ⟨trivial, encodable_nil⟩⟩
    obtain ⟨r, _, rfl⟩ := List.mem_map.mp hi
    trivial
  refine ⟨_, t, .execAll hcode.left hencodable ht, hcode.right.fetch_eq trivial, ?_, hrestores⟩
  rw [hv, ← h.agrees .r0 ⟨by decide, by decide, by decide⟩]
  rfl

/-- The code of an exit returns the value of the first register. -/
theorem reaches_exit (he : Emits (sourceOf config program resolve) tables e done c)
    (hsize : (Frame.ofProgram program).size depth + 16 < 2 ^ 32)
    (hroom : entry.Room ((Frame.ofProgram program).size depth + 16))
    (h : InStep program depth entry k regs s) (hs : program.steps = before ++ st :: after)
    (hk : slotCount before = k) (hi : st.index = k) (h1 : st.slots = 1)
    (ho : st.operation = .ok .exit) :
    ∃ offset t, Reaches c.code (c.offset k) s offset t ∧
      Returns c.code entry ((Frame.ofProgram program).size depth + 16) (regs .r0) offset t := by
  subst hk
  obtain ⟨_, _, fragment, hh, hcode, hstop⟩ := he.hasCode_step hs ho (by simp)
  rcases hh.epilogue_eq with ⟨_, hnone⟩ | ⟨front, x, back, rfl, hfront, hx, hsome⟩
  · exact reaches_epilogue hsize hroom (hasCode_epilogue he hs ho hnone) h
  · -- a later exit jumps to the first one
    rcases Pass.lower_exit hh.lowered with ⟨hn, _⟩ | ⟨start, distance, filler, hstart, hd, h32, hf, hc⟩
    · rw [hn] at hsome
      cases hsome
    · obtain rfl := Option.some.inj (hstart.symm.trans hsome)
      have hsplit : program.steps = front ++ x :: (back ++ st :: after) := by rw [hs]; simp
      obtain ⟨offset, t, hreach, hreturns⟩ :=
        reaches_epilogue hsize hroom (hasCode_epilogue he hsplit hx hfront) h
      rw [h1, hc] at hstop
      rw [hc] at hcode
      rw [hi, he.pass_offset, he.out_offset, hstop] at hd
      exact ⟨offset, t, (reaches_jmp hcode hf h32 hd).trans hreach, hreturns⟩

/-- What the code does where the interpreter meets an event: it goes on together with the
interpreter, or it returns the value that the program ends with. -/
def Follows (program : Program) (c : CompiledProgram) (depth : UInt32) (entry : State) (start : Nat)
    (s : State) : Event → Prop
  | .goto k regs =>
    ∃ t, Reaches c.code start s (c.offset k) t ∧ InStep program depth entry k regs t
  | .exit value =>
    ∃ offset t, Reaches c.code start s offset t ∧
      Returns c.code entry ((Frame.ofProgram program).size depth + 16) value offset t

/-- A jump of the interpreter leads to the slot at its distance. -/
theorem jumpFrom_eq_some {off : Int16} {event : Event} (h : Program.jumpFrom k off regs = some event) :
    ∃ target : Nat, (target : Int) = k + 1 + off.toInt ∧ event = .goto target regs := by
  unfold Program.jumpFrom at h
  split at h
  · cases h
    exact ⟨_, by omega, rfl⟩
  · cases h

/-- A wide load puts its two immediates together. -/
theorem wide_eq (high lo : Int32) :
    ((high.toUInt32.toUInt64 <<< 32) ||| lo.toUInt32.toUInt64).toBitVec =
      high.toBitVec ++ lo.toBitVec := by
  have hshift : (high.toUInt32.toUInt64 <<< 32).toBitVec = high.toBitVec.setWidth 64 <<< 32 := rfl
  have hlow : lo.toUInt32.toUInt64.toBitVec = lo.toBitVec.setWidth 64 := rfl
  rw [UInt64.toBitVec_or, hshift, hlow]
  apply BitVec.eq_of_getLsbD_eq
  intro i hi
  rw [BitVec.getLsbD_or, BitVec.getLsbD_shiftLeft, BitVec.getLsbD_setWidth, BitVec.getLsbD_setWidth,
    BitVec.getLsbD_append]
  by_cases h : i < 32
  · simp [h, hi]
  · have hb : lo.toBitVec.getLsbD i = false := BitVec.getLsbD_of_ge _ _ (by omega)
    have hsmall : i - 32 < 64 := by omega
    simp [h, hb, hi, hsmall]

/-- The slot that a jump leads to starts a step. -/
theorem isBoundary_target (hplain : program.IsPlain) {i : Insn} (hv : program.Visits k i)
    (hj : (i.isJump || i.isBranch) = true) {target : Nat} (ht : (target : Int) = k + 1 + i.off.toInt)
    (hle : target ≤ program.size) : program.IsBoundary target := by
  rcases program.isBoundary_or hle with hb | ⟨l, j, hl, hw, heq⟩
  · exact hb
  · exact absurd (by omega) (hplain.target_ne k i l j hv hj hl hw)

/-- The code of a conditional jump follows the interpreter. -/
theorem follows_branch (he : Emits (sourceOf config program resolve) tables e done c)
    (hplain : program.IsPlain) (h : InStep program depth entry k regs s)
    (hs : program.steps = before ++ st :: after) (hk : slotCount before = k) (hi : st.index = k)
    (h1 : st.slots = 1) {i : Insn} (hv : program.Visits k i) (hb : i.isBranch = true)
    {operation : Operation} (ho : i.operation = .ok operation) (hst : st.operation = .ok operation)
    {holds : Bool} (hj : i.jumps regs = some holds) :
    ∃ target : Nat, (target : Int) = k + 1 + i.off.toInt ∧
      Follows program c depth entry (c.offset k) s (.goto (if holds then target else k + 1) regs) := by
  rw [Insn.operation_eq_branching hb] at ho
  obtain ⟨cond, dst, src, hcond, hd, hsrc, rfl⟩ := Insn.branching_eq_ok ho
  have hjumps : i.jumps regs = some _ := Insn.jumps_eq i.branchSize hcond hd hsrc (by
    unfold Insn.branchSize
    split <;> simp_all)
  obtain rfl := Option.some.inj (hj.symm.trans hjumps)
  have hdst := VReg.isGeneral_of_index (register_eq_ok.mp hd)
    (hplain.dst_le k i hv (by simp [Insn.usesDst, hb]))
  have hgeneral := Insn.isGeneral_of_operand hsrc fun hr =>
    hplain.src_le k i hv (by simp [Insn.usesSrc, hr, hb])
  obtain ⟨t, target, ht, hle, hregs, hmem, hreach⟩ :=
    reaches_branch he h hs hk hi h1 hst hdst hgeneral
  refine ⟨target, ht, t, hreach, ?_, h.stands.congr hregs hmem, fun r hr => ?_⟩
  · split
    · exact isBoundary_target hplain hv (by simp [hb]) ht hle
    · have hnext := Program.isBoundary_next hs
      rwa [hk, h1] at hnext
  · rw [hregs]
    exact h.agrees r hr

/-- The code of a slot follows the interpreter. -/
theorem follows_slot (he : Emits (sourceOf config program resolve) tables e done c)
    (hplain : program.IsPlain) (hsize : (Frame.ofProgram program).size depth + 16 < 2 ^ 32)
    (hroom : entry.Room ((Frame.ofProgram program).size depth + 16))
    (h : InStep program depth entry k regs s) {event : Event}
    (hi : program.interpretSlot k regs = some event) :
    Follows program c depth entry (c.offset k) s event := by
  obtain ⟨i, hslot, hmeets⟩ := Program.meets_of_interpretSlot hi
  obtain ⟨before, st, after, hs, hk, hindex, hv, hread⟩ := h.boundary.step hslot
  obtain ⟨_, operation, _, _, _, hh⟩ := PassOutput.holds_of_run he.run_eq hs
    fun x hx => one_le_slots hx
  have hop := hh.operation_eq
  have hone : i.isWideLoad = false → st.slots = 1 ∧ i.operation = .ok operation := by
    intro hw
    rcases hread with ⟨hj, _⟩ | ⟨hj, _⟩ | ⟨_, h1, ho⟩
    · rw [hw] at hj
      cases hj
    · rw [hw] at hj
      cases hj
    · exact ⟨h1, ho.symm.trans hop⟩
  cases hmeets with
  | @wide next dst hw hn hd =>
    rcases hread with ⟨_, herror⟩ | ⟨_, h2, next', hn', ho⟩ | ⟨hj, _⟩
    · rw [hop] at herror
      cases herror
    · obtain rfl := Option.some.inj (hn.symm.trans hn')
      rw [hop, Insn.wideOperation, register_eq_ok.mpr hd] at ho
      cases ho
      have hresult : (Operation.loadWide dst
          ((next.imm.toUInt32.toUInt64 <<< 32) ||| i.imm.toUInt32.toUInt64)).result regs =
          some (dst, next.imm.toBitVec ++ i.imm.toBitVec) := by
        rw [Operation.result, wide_eq]
      have hdst : dst.IsGeneral :=
        VReg.isGeneral_of_index hd (hplain.dst_le k i hv (by simp [Insn.usesDst, hw]))
      have hreach := reaches_arithmetic he hsize hroom h hs hk hop hdst hresult
        (Program.mem_saved hv hd)
      rwa [h2] at hreach
    · rw [hw] at hj
      cases hj
  | @compute size dst v hw hcls ho hd hresult =>
    obtain ⟨h1, hoi⟩ := hone hw
    rw [ho] at hoi
    obtain ⟨dst', hd', hr⟩ := Insn.reads_of_arithmetic hoi
    obtain rfl := Option.some.inj (hd.symm.trans hd')
    have hdst : dst.IsGeneral := VReg.isGeneral_of_index hd (hplain.dst_le k i hv (by
      unfold Insn.usesDst
      rcases hcls with hcls | hcls <;> simp [hcls]))
    have ha := hr.isArithmetic hdst fun h80 hD0 hf => hplain.src_le k i hv (by
      unfold Insn.usesSrc
      rcases hcls with hcls | hcls <;> simp [hcls, h80, hD0, hf])
    have hreach := reaches_arithmetic he hsize hroom h hs hk hop ha (hresult operation hr)
      (Program.mem_saved hv hd)
    rwa [h1] at hreach
  | jump hj hevent =>
    obtain ⟨h1, hoi⟩ := hone (Insn.not_isWideLoad_of_cls (.inl (Insn.cls_of_isJump hj)))
    obtain rfl := Except.ok.inj (hoi.symm.trans (Insn.operation_of_isJump hj))
    obtain ⟨target, ht, rfl⟩ := jumpFrom_eq_some hevent
    obtain ⟨hreach, hle⟩ := reaches_jump he hs hk hindex h1 hop ht
    refine ⟨s, hreach, ?_, h.stands, h.agrees⟩
    rcases hle with rfl | hle
    · exact h.boundary
    · exact isBoundary_target hplain hv (by simp [hj]) ht hle
  | exit hx =>
    obtain ⟨h1, hoi⟩ := hone (Insn.not_isWideLoad_of_cls (.inl (Insn.cls_of_isExit hx)))
    obtain rfl := Except.ok.inj (hoi.symm.trans (Insn.operation_eq_exit.mpr hx))
    exact reaches_exit he hsize hroom h hs hk hindex h1 hop
  | taken hb hj hevent =>
    obtain ⟨h1, hoi⟩ := hone (Insn.not_isWideLoad_of_cls (Insn.cls_of_isBranch hb))
    obtain ⟨target, ht, hfollows⟩ := follows_branch he hplain h hs hk hindex h1 hv hb hoi hop hj
    obtain ⟨target', ht', rfl⟩ := jumpFrom_eq_some hevent
    obtain rfl : target = target' := by omega
    exact hfollows
  | passed hb hj =>
    obtain ⟨h1, hoi⟩ := hone (Insn.not_isWideLoad_of_cls (Insn.cls_of_isBranch hb))
    obtain ⟨_, _, hfollows⟩ := follows_branch he hplain h hs hk hindex h1 hv hb hoi hop hj
    exact hfollows

/-- The code follows the interpreter to the end of the program. -/
theorem follows_interpret (he : Emits (sourceOf config program resolve) tables e done c)
    (hplain : program.IsPlain) (hsize : (Frame.ofProgram program).size depth + 16 < 2 ^ 32)
    (hroom : entry.Room ((Frame.ofProgram program).size depth + 16)) (limit : Nat)
    (h : InStep program depth entry k regs s) {v : BitVec 64}
    (hi : program.interpret limit k regs = some v) :
    Follows program c depth entry (c.offset k) s (.exit v) := by
  induction limit generalizing k regs s with
  | zero => cases hi
  | succ limit ih =>
    rw [Program.interpret] at hi
    split at hi
    · rename_i k' regs' hslot
      obtain ⟨t, hreach, hin⟩ := follows_slot he hplain hsize hroom h hslot
      obtain ⟨offset, u, hrest, hreturns⟩ := ih hin hi
      exact ⟨offset, u, hreach.trans hrest, hreturns⟩
    · rename_i value hslot
      cases hi
      exact follows_slot he hplain hsize hroom h hslot
    · cases hi

end Simulation

/-- The prologue can be read back. -/
theorem encodable_prologue (f : Frame) (depth : UInt32) : Encodable (f.prologue depth) := by
  have hpushes : Encodable f.pushes := by
    intro i hi
    obtain ⟨r, _, rfl⟩ := List.mem_map.mp hi
    trivial
  unfold Frame.prologue
  simp only [encodable_append, hpushes, and_true]
  refine ⟨⟨⟨⟨encodable_filler (isFiller_nops 5), ?_⟩, by simp [Instr.HasOwnEncoding]⟩, ?_⟩, ?_⟩
  · split
    · simp [Instr.HasOwnEncoding]
    · exact encodable_filler (isFiller_nops 2)
  · split <;> simp [Instr.HasOwnEncoding]
  · split <;> simp [Instr.HasOwnEncoding]

/-- The code of every compiled program on general registers computes what the interpreter computes,
as long as the stack area fits a signed displacement: it returns the value of the program and leaves
the caller's registers, and memory apart from its room on the stack, as they were. -/
theorem returns_of_compiles {config : Config} {program : Program} {c : CompiledProgram}
    (h : Compiles config program c) (hplain : program.IsPlain)
    (hdepth : program.stackDepth.toNat ≤ 2 ^ 31 - 8) {entry : State}
    (hroom : entry.Room (program.stackDepth.toNat + 72)) {limit : Nat} {v : BitVec 64}
    (hi : program.interpret limit 0 ((Frame.ofProgram program).entryRegisters entry) = some v) :
    ∃ offset t, Reaches c.code 0 entry offset t ∧
      Returns c.code entry (program.stackDepth.toNat + 72) v offset t := by
  obtain ⟨resolve, tables, e, done, he⟩ := h.emits
  obtain ⟨_, hmono, hend, depth, hd, hstart, hprologue⟩ := he.offset_map
  have hround : depth.toNat = roundUp program.stackDepth.toNat 8 := hd
  have hsaved : ∀ r ∈ (Frame.ofProgram program).saved, r ∈ VReg.calleeSaved :=
    fun r hr => (List.mem_filter.mp hr).1
  have hlen : (Frame.ofProgram program).saved.length ≤ 4 := by
    calc (Frame.ofProgram program).saved.length ≤ VReg.calleeSaved.length :=
          List.length_filter_le _ _
      _ = 4 := rfl
  have hsize : (Frame.ofProgram program).size depth + 16 ≤ program.stackDepth.toNat + 72 := by
    have hcounted : (if (Frame.ofProgram program).counted then 8 else 0) ≤ 8 := by split <;> omega
    unfold roundUp at hround
    unfold Frame.size Frame.upperSize
    omega
  have hroomFrame : entry.Room ((Frame.ofProgram program).size depth + 16) :=
    fun a ha => hroom a (by omega)
  have hlt : depth.toNat < 2 ^ 31 := by
    unfold roundUp at hround
    omega
  obtain ⟨s, hs, hstands, hagrees⟩ := Frame.exec_prologue hd hlt hsaved hlen hroomFrame
  have hle := hmono 0 program.size (Nat.zero_le _) (Nat.le_refl _)
  have hcode := he.hasCode hprologue (by
    rw [Nat.zero_add, ← hstart, ← hend]
    exact hle)
  have hbuilt := Reaches.execAll hcode (encodable_prologue _ depth) hs
  rw [Nat.zero_add, show codeSize _ = c.offset 0 from hstart.symm] at hbuilt
  obtain ⟨offset, t, hrest, hreturns⟩ := follows_interpret he hplain (by omega) hroomFrame limit
    ⟨⟨[], program.steps, rfl, rfl⟩, hstands, hagrees⟩ hi
  exact ⟨offset, t, hbuilt.trans hrest, hreturns.fetch_eq, hreturns.value_eq,
    hreturns.restores.regs_eq, hreturns.restores.memory.mono hsize⟩

/-- The product of the numbers up to the first argument in a loop, a wide load, and a division. -/
def loopingProgram : Program where
  name := "looping"
  insns := [⟨0xB7, 0, 0, 0, 1⟩, ⟨0x2F, 0, 1, 0, 0⟩, ⟨0x17, 1, 0, 0, 1⟩, ⟨0x55, 1, 0, -3, 0⟩,
    ⟨0x18, 6, 0, 0, 0⟩, ⟨0x00, 0, 0, 0, 1⟩, ⟨0x0F, 0, 6, 0, 0⟩, ⟨0x37, 0, 0, 0, 7⟩, ⟨0x95, 0, 0, 0, 0⟩]
  stackDepth := 20

/-- A caller with one argument and so many bytes of stack. -/
def callerState (argument : BitVec 64) (room : Nat) : State where
  regs := fun r => if r = .rsp then 0x10000000000 else if r = .rdi then argument else 0
  flags := none
  mem := ⟨fun _ => 0, fun a => decide (below 0x10000000000 a < room)⟩

/-- A caller has the room that it has. -/
theorem room_callerState (argument : BitVec 64) {count room : Nat} (h : count ≤ room) :
    (callerState argument room).Room count := by
  intro a ha
  exact decide_eq_true (Nat.lt_of_lt_of_le ha h)

/-- The compiled loop returns the value that the interpreter gives for the argument five. -/
theorem returns_loopingProgram :
    loopingProgram.interpret 20 0
      ((Frame.ofProgram loopingProgram).entryRegisters (callerState 5 4096)) = some 613566773 ∧
    ∃ c offset t, Compiles {} loopingProgram c ∧ Reaches c.code 0 (callerState 5 4096) offset t ∧
      Returns c.code (callerState 5 4096) 92 613566773 offset t := by
  have hi : loopingProgram.interpret 20 0
      ((Frame.ofProgram loopingProgram).entryRegisters (callerState 5 4096)) = some 613566773 := by
    decide +kernel
  have hc : (compile {} loopingProgram (fun _ => none) #[] fun size =>
      .ok (.blank 0x1000 size)).program?.isSome = true := by
    decide +kernel
  obtain ⟨c, hc⟩ := Option.isSome_iff_exists.mp hc
  have hcompiles : Compiles {} loopingProgram c := .atOnce (Compilation.program?_eq_some.mp hc)
  obtain ⟨offset, t, hreach, hreturns⟩ := returns_of_compiles hcompiles (by decide +kernel)
    (by decide) (room_callerState 5 (by decide)) hi
  exact ⟨hi, c, offset, t, hcompiles, hreach, hreturns⟩

/-- The processor faults within so many steps and meets no return before. -/
def faults (code : List UInt8) : Nat → Nat → State → Bool
  | 0, _, _ => false
  | count + 1, offset, s =>
    (fetch code offset).map Prod.fst != some .ret &&
      match step code offset s with
      | none => true
      | some (next, t) => faults code count next t

/-- A processor that faults never gets to a return. -/
theorem not_ret_of_faults {code : List UInt8} {count start offset : Nat} {s t : State}
    (h : faults code count start s = true) (hr : Reaches code start s offset t) :
    (fetch code offset).map Prod.fst ≠ some .ret := by
  induction count generalizing start s with
  | zero => cases h
  | succ count ih =>
    rw [faults, Bool.and_eq_true, bne_iff_ne] at h
    obtain ⟨steps, hrun⟩ := hr
    cases steps with
    | zero =>
      cases hrun
      exact h.1
    | succ steps =>
      obtain ⟨p, hstep, hrun⟩ := Option.bind_eq_some_iff.mp hrun
      rw [hstep] at h
      exact ih h.2 ⟨steps, hrun⟩

/-- A program with the largest stack area below two gigabytes that saves a register. -/
def deepProgram : Program where
  name := "deep"
  insns := [⟨0xB7, 6, 0, 0, 5⟩, ⟨0xBF, 0, 6, 0, 0⟩, ⟨0x95, 0, 0, 0, 0⟩]
  stackDepth := 2147483647

/-- The bound on the stack area is needed: this area is rounded up to two gigabytes, which is a
negative displacement, so the prologue moves the stack pointer up and the first push faults although
there are four gigabytes of stack. -/
theorem not_returns_deepProgram :
    deepProgram.stackDepth.toNat < 2 ^ 31 ∧ deepProgram.IsPlain ∧
    (callerState 0 (2 ^ 32)).Room (deepProgram.stackDepth.toNat + 72) ∧
    deepProgram.interpret 3 0
      ((Frame.ofProgram deepProgram).entryRegisters (callerState 0 (2 ^ 32))) = some 5 ∧
    ∃ c, Compiles {} deepProgram c ∧
      ¬∃ offset t, Reaches c.code 0 (callerState 0 (2 ^ 32)) offset t ∧
        fetch c.code offset = some (.ret, offset + 1) := by
  refine ⟨by decide, by decide +kernel, room_callerState 0 (by decide), by decide +kernel, ?_⟩
  have hc : ((compile {} deepProgram (fun _ => none) #[] fun size =>
      .ok (.blank 0x1000 size)).program?.map fun c => faults c.code 7 0 (callerState 0 (2 ^ 32))) =
        some true := by
    decide +kernel
  obtain ⟨c, hc, hfaults⟩ := Option.map_eq_some_iff.mp hc
  refine ⟨c, .atOnce (Compilation.program?_eq_some.mp hc), ?_⟩
  rintro ⟨offset, t, hreach, hret⟩
  exact not_ret_of_faults hfaults hreach (by rw [hret, Option.map_some])

end NativeForge
