import NativeForge.Proofs.InstalledCalls
import NativeForge.Proofs.LoweredLevels

/-!
# Compiled code in blocks

The code of a compiled program is its prologue and the code of its operations, one behind the
other. Every operation starts a block: control leaves the block only for the start of another one,
or for another program, and calls and jumps are made with the stack pointer where it was at the
start. The two fields of a direct tail call stand in the image as they were installed, so the block
of such a call ends with the jump around the teardown or with the jump to the target. All of the
code can be read back, and it writes no register that a caller may keep a value in, unless the
prologue saved it.
-/

namespace NativeForge

open X64 Virtual Target TailCall

namespace Virtual

/-- The offset is that of a slot of the program, or the end of the code. -/
def Program.StartsAt (p : Program) (c : CompiledProgram) (a : Nat) : Prop :=
  ∃ k ≤ p.size, a = c.offset k

/-- A direct tail call of the program has its jump to the target at the offset. -/
def Program.LeavesAt (p : Program) (c : CompiledProgram) (a : Nat) : Prop :=
  ∃ k i id, p.Visits k i ∧ i.operation = .ok (.tailCall id) ∧ id ≠ 0 ∧
    a + siteSize = c.offset (k + 1)

/-- Reducing a stored immediate makes no tail call and names no other register. -/
theorem Operation.trimmed_spec (operation : Operation) :
    operation.trimmed.target? = operation.target? ∧
      ∀ id, operation.trimmed = .tailCall id → operation = .tailCall id := by
  cases operation with
  | storeImm =>
    refine ⟨rfl, fun id h => ?_⟩
    cases h
  | _ => exact ⟨rfl, fun id h => h⟩

/-- A step that is a tail call is one visited slot that means it. -/
theorem Program.visits_of_tailCall {p : Program} {before after : List Step} {s : Step} {id : Int32}
    (hs : p.steps = before ++ s :: after) (ho : s.operation = .ok (.tailCall id)) :
    s.slots = 1 ∧ ∃ i, p.Visits (slotCount before) i ∧ i.operation = .ok (.tailCall id) := by
  obtain ⟨hindex, i, rest, hdrop, _, hcases⟩ := stepsFrom_split hs
  have hi : p.insns[slotCount before]? = some i := by
    rw [← List.head?_drop, hdrop]
    rfl
  rcases hcases with ⟨_, _, _, herror⟩ | ⟨_, _, next, _, _, hwide⟩ | ⟨_, hone, hsingle⟩
  · rw [herror] at ho
    cases ho
  · obtain ⟨dst, _, h⟩ := bind_eq_ok.mp (hwide.symm.trans ho)
    cases pure_eq_ok.mp h
  · exact ⟨hone, i, ⟨⟨s, by simp [hs], by omega⟩, hi⟩, hsingle.symm.trans ho⟩

end Virtual

/-- The instructions of a step of a program, as they stand in its compiled code. -/
structure StepCode (program : Program) (c : CompiledProgram) (k slots : Nat)
    (instrs : List Instr) : Prop where
  /-- The instructions stand at the offset of the step. -/
  hasCode : HasCode c.code (c.offset k) instrs
  /-- The instructions can be read back. -/
  encodable : Encodable instrs
  /-- The instructions write what the frame lets them write. -/
  writes : WritesOnly (Frame.ofProgram program).writable instrs
  /-- The other slots of the step and the next step are behind the instructions. -/
  stop_eq : ∀ j, 1 ≤ j → j ≤ slots → c.offset (k + j) = c.offset k + codeSize instrs
  /-- Control leaves the instructions at the level of their start; there may be more of them that
  control does not get to. -/
  live : ∃ front back, instrs = front ++ back ∧ (front = [] → back = []) ∧
    Levelled (program.StartsAt c) (program.LeavesAt c) (c.offset k) front

/-- Instructions stand in a row if they stand one behind the other. -/
theorem X64.HasCode.append {code : List UInt8} {a : Nat} {front back : List Instr}
    (hf : HasCode code a front) (hb : HasCode code (a + codeSize front) back) :
    HasCode code a (front ++ back) := by
  obtain ⟨rest, hrest⟩ := hf
  obtain ⟨last, hlast⟩ := hb
  rw [← List.drop_drop, hrest, List.drop_left' (length_encodeAll front)] at hlast
  exact ⟨last, by rw [hrest, hlast, encodeAll_append, List.append_assoc]⟩

/-- Every step of a program stands in the output of a pass over the program, and a direct tail call
is among those of the output. -/
theorem PassOutput.holds_with_direct {p : Pass} {out : PassOutput} {steps before after : List Step}
    {s : Step} (h : p.run steps = .ok out) (hs : steps = before ++ s :: after)
    (hslots : ∀ x ∈ steps, 1 ≤ x.slots) :
    ∃ depth operation epilogue fragment, p.frame.IsDepth depth ∧
      out.Holds p depth before s operation epilogue fragment ∧
      ∀ site, fragment.direct = some site →
        site.shift (out.offset (slotCount before)) ∈ out.direct := by
  obtain ⟨_, depth, placed, hdepth, hplace, rfl⟩ := Pass.run_eq_ok h
  subst hs
  obtain ⟨front, tail, operation, fragment, _, hplaced, hh⟩ := holds_of_place hplace hslots
  refine ⟨depth, operation, _, fragment, hdepth, hh, fun site hsite => ?_⟩
  have hmem : ∀ x, placed = front ++ x :: tail → x ∈ placed := by
    intro x hx
    rw [hx]
    simp
  refine List.mem_filterMap.mpr ⟨_, hmem _ hplaced, ?_⟩
  rw [Placed.direct?, hsite]
  rfl

namespace Emits

variable {source : Source} {tables : Array Table} {e : Emission} {done : Installation}
  {c : CompiledProgram}

/-- An instruction that is read in memory at an address of the image stands in the code. -/
theorem hasCode_of_reads (he : Emits source tables e done c) {ip : Address} {offset : Nat}
    {i : Instr} (hip : ip.toNat = c.image.base.toNat + offset)
    (hle : offset + i.size ≤ c.code.length) (hread : Reads c.image.byteAt ip.toNat i.encode) :
    HasCode c.code offset [i] := by
  have hone : encodeAll [i] = i.encode := by rw [encodeAll_cons, encodeAll_nil, List.append_nil]
  refine he.hasCode ?_ (by rwa [codeSize_cons, codeSize_nil])
  rw [hone]
  exact (Image.reads_iff_holdsAt hip).mp hread

/-- The two fields of a direct tail call stand in the code: a jump around the teardown and nothing
behind it, or nothing and a jump to a target. -/
theorem hasCode_fields (he : Emits source tables e done c) {d : DirectSite}
    (hd : d ∈ e.out.direct) :
    (∃ rel : Int32, rel.toInt = d.targetOffset - d.bypassOffset ∧
      HasCode c.code d.bypassOffset [.jmp (.dword rel)] ∧
      HasCode c.code d.targetOffset [.nop 4]) ∨
    HasCode c.code d.bypassOffset [.nop 4] ∧
      ∃ rel : Int32, HasCode c.code d.targetOffset [.jmp (.dword rel)] := by
  obtain ⟨calls, hare, _, _, hknown, hshows⟩ := he.exists_calls
  have hmem : (declared source.program.descriptors d.descriptor,
      (d.place e.written.base : Result Error PatchSite)) ∈
      calls.map fun call => (some (call.table, call.key), .ok call.site) :=
    hare ▸ List.mem_map_of_mem hd
  obtain ⟨call, hcall, heq⟩ := List.mem_map.mp hmem
  have hplace : (d.place c.image.base : Result Error PatchSite) = .ok call.site := by
    rw [he.image_block.1]
    exact (Prod.mk.inj heq).2.symm
  obtain ⟨hbypass, htarget, hresume, _⟩ := DirectSite.place_eq_ok hplace
  obtain ⟨⟨hfields, hnear, hinside⟩, _⟩ :=
    PassOutput.direct_code he.run_eq (fun x hx => one_le_slots hx) hd
  rw [← he.length_code] at hinside
  have hnop := isField_nop.size_eq
  have hjmp := fun rel => (isField_jmp rel).size_eq
  obtain ⟨t, ht⟩ : ∃ t, tables[call.table]? = some t :=
    ⟨_, Array.getElem?_eq_getElem (hknown call hcall)⟩
  have hat := hshows call hcall t ht
  cases hslot : t.slots call.key with
  | none =>
    rw [hslot] at hat
    obtain ⟨⟨_, ⟨rel, rfl, hrel⟩, hread⟩, _, rfl, hempty⟩ := hat
    have hbound := rel.toInt_lt
    have hbound' := rel.le_toInt
    refine .inl ⟨rel, ?_, he.hasCode_of_reads hbypass (by rw [hjmp]; omega) hread,
      he.hasCode_of_reads htarget (by rw [hnop]; omega) hempty⟩
    rw [hresume, hbypass, siteSize] at hrel
    omega
  | some entry =>
    rw [hslot] at hat
    obtain ⟨⟨_, rfl, hempty⟩, landing, _, _, ⟨rel, rfl, _⟩, hread⟩ := hat
    exact .inr ⟨he.hasCode_of_reads hbypass (by rw [hnop]; omega) hempty, rel,
      he.hasCode_of_reads htarget (by rw [hjmp]; omega) hread⟩

end Emits

namespace Emits

variable {config : Config} {program : Program} {resolve : CallSite → Option Address}
  {tables : Array Table} {e : Emission} {done : Installation} {c : CompiledProgram}
  {before after : List Step} {s : Step} {depth : UInt32} {operation : Operation}
  {epilogue : Option Nat} {fragment : Fragment}

/-- The frame of the final pass is that of the program. -/
theorem frame_eq (he : Emits (sourceOf config program resolve) tables e done c) :
    e.pass.frame = Frame.ofProgram program := by
  obtain ⟨padding, hpass⟩ := he.pass_eq
  rw [hpass]
  rfl

/-- The offsets behind a step of the program. -/
theorem offset_stop (he : Emits (sourceOf config program resolve) tables e done c)
    (hh : e.out.Holds e.pass depth before s operation epilogue fragment) :
    ∀ j, 1 ≤ j → j ≤ s.slots →
      c.offset (slotCount before + j) = c.offset (slotCount before) + codeSize fragment.code := by
  intro j h1 h2
  rw [← he.out_offset, ← he.out_offset]
  exact hh.stop_eq j h1 h2

/-- A known epilogue starts at the offset of a slot. -/
theorem startsAt_epilogue (he : Emits (sourceOf config program resolve) tables e done c)
    (hs : program.steps = before ++ s :: after)
    (hh : e.out.Holds e.pass depth before s operation epilogue fragment) {first : Nat}
    (hfirst : epilogue = some first) : program.StartsAt c first := by
  rcases hh.epilogue_eq with ⟨hnone, _⟩ | ⟨front, x, back, rfl, _, _, hsome⟩
  · rw [hnone] at hfirst
    cases hfirst
  · rw [hsome] at hfirst
    cases hfirst
    have hle := Program.slots_le hs
    rw [slotCount_append] at hle
    exact ⟨slotCount front, by omega, he.out_offset _⟩

/-- The code of an operation other than a tail call. -/
theorem stepCode_of_holds (he : Emits (sourceOf config program resolve) tables e done c)
    (hs : program.steps = before ++ s :: after)
    (hh : e.out.Holds e.pass depth before s operation epilogue fragment)
    (htail : ∀ id, operation ≠ .tailCall id) :
    ∃ instrs, StepCode program c (slotCount before) s.slots instrs := by
  have hone : 1 ≤ s.slots := one_le_slots (show s ∈ program.steps by simp [hs])
  obtain ⟨i, _, hgrants⟩ := Program.grants_of_step hs hh.operation_eq
  obtain ⟨g, hg, hbytes⟩ := Pass.lower_trimmed hh.lowered
  obtain ⟨htarget, htrimmed⟩ := operation.trimmed_spec
  have hplain : ∀ id, operation.trimmed ≠ .tailCall id := fun id h => htail id (htrimmed id h)
  have hsize : codeSize fragment.code = codeSize g.code := by
    rw [← length_encodeAll, ← hbytes, length_encodeAll]
  have hstop := he.offset_stop hh
  rw [hsize] at hstop
  have hindex : s.index = slotCount before := by
    obtain ⟨hindex, _⟩ := Program.visits_of_split hs
    exact hindex
  have hdoor : program.StartsAt c (c.offset (slotCount before) + codeSize g.code) :=
    ⟨slotCount before + s.slots, Program.slots_le hs, (hstop _ hone (Nat.le_refl _)).symm⟩
  refine ⟨g.code, ?_, Pass.encodable_of_readable hg hgrants.readable hplain, ?_, hstop,
    g.code, [], by simp, fun _ => rfl, ?_⟩
  · obtain ⟨rest, hrest⟩ := he.hasCode_part hs hh (show fragment.code = [] ++ fragment.code ++ [] by
      simp) fun id hid _ => absurd hid (htail id)
    exact ⟨rest, by rw [hbytes]; exact hrest⟩
  · rw [← he.frame_eq]
    refine Pass.writesOnly_lower hg (fun v hv => ?_) hplain
    rw [he.frame_eq]
    exact Frame.target_mem_writable hs hh.operation_eq (htarget ▸ hv)
  · refine Pass.levelled_lower hg hplain ?_ hdoor (fun off distance hdistance => ?_)
      fun first hfirst => he.startsAt_epilogue hs hh hfirst
    · rw [he.pass_offset, hindex]
      exact hstop 1 (Nat.le_refl _) hone
    · rw [hindex] at hdistance
      obtain ⟨target, _, hle, hreach⟩ := he.jumpDistance_eq hdistance
      refine ⟨c.offset target, ?_, target, hle, rfl⟩
      rw [← hstop 1 (Nat.le_refl _) hone]
      exact hreach

/-- The code of an indirect tail call. -/
theorem stepCode_of_indirect (he : Emits (sourceOf config program resolve) tables e done c)
    (hs : program.steps = before ++ s :: after)
    (hh : e.out.Holds e.pass depth before s (.tailCall 0) epilogue fragment)
    (hcode : indirect (Frame.ofProgram program) depth e.pass.abi = .ok fragment.code) :
    StepCode program c (slotCount before) s.slots fragment.code := by
  have hone : 1 ≤ s.slots := one_le_slots (show s ∈ program.steps by simp [hs])
  have hstop := he.offset_stop hh
  have hhas := he.hasCode_part hs hh (show fragment.code = [] ++ fragment.code ++ [] by simp)
    fun id hid hne => absurd (Operation.tailCall.inj hid).symm hne
  obtain ⟨hrax, hrcx, _⟩ := (Frame.ofProgram program).scratch_writable
  obtain ⟨guard, hsplit, hguards⟩ := indirect_guards hcode
  have hbase : Reg.rcx.code ≠ 4 := by decide
  have hlanding : Encodable (landing e.pass.abi ++ [.jmpReg .rcx]) ∧
      WritesOnly (Frame.ofProgram program).writable (landing e.pass.abi ++ [.jmpReg .rcx]) := by
    simp [landing, Instr.HasOwnEncoding, Instr.written, hbase, hrcx]
  refine ⟨hhas, ?_, ?_, hstop, fragment.code, [], by simp, fun _ => rfl, ?_⟩
  · rw [hsplit, List.append_assoc]
    exact encodable_append.mpr ⟨hguards.encodable,
      encodable_append.mpr ⟨encodable_teardown _ _, hlanding.1⟩⟩
  · rw [hsplit, List.append_assoc]
    exact writesOnly_append.mpr ⟨hguards.writes,
      writesOnly_append.mpr ⟨writesOnly_teardown _ _, hlanding.2⟩⟩
  · have hdoor : program.StartsAt c (c.offset (slotCount before) + codeSize fragment.code) :=
      ⟨slotCount before + s.slots, Program.slots_le hs, (hstop _ hone (Nat.le_refl _)).symm⟩
    rw [hsplit, codeSize_append, ← Nat.add_assoc] at hdoor
    rw [hsplit]
    refine hguards.levelled_leaving hdoor ?_ (by simp) rfl (.inl rfl)
    exact List.forall_mem_append.mpr ⟨plain_teardown _ _, List.all_eq_true.mp rfl⟩

/-- The code of a direct tail call stands around what its two fields hold. -/
theorem hasCode_direct (he : Emits (sourceOf config program resolve) tables e done c)
    (hs : program.steps = before ++ s :: after) {id : Int32}
    (hh : e.out.Holds e.pass depth before s (.tailCall id) epilogue fragment)
    {guard teardown : List Instr} {bypass target b t : Instr}
    (hcode : fragment.code = directCode guard teardown bypass target)
    (hguard : codeSize guard = 20) (hbypass : IsField bypass) (htarget : IsField target)
    (hfield : IsField b) (hb : HasCode c.code (c.offset (slotCount before) + codeSize guard) [b])
    (ht : HasCode c.code (c.offset (slotCount before) + (codeSize guard + siteSize +
      codeSize teardown)) [t]) :
    HasCode c.code (c.offset (slotCount before)) (directCode guard teardown b t) := by
  have hfront := he.hasCode_part hs hh
    (show fragment.code = [] ++ guard ++ ([bypass] ++ teardown ++ [target]) by
      simp [hcode, directCode])
    fun _ _ _ => by
      simp only [List.nil_append, codeSize_append, codeSize_cons, codeSize_nil, hbypass.size_eq,
        htarget.size_eq]
      omega
  have hmiddle := he.hasCode_part hs hh hcode fun _ _ _ => by
    simp only [codeSize_append, codeSize_cons, codeSize_nil, hbypass.size_eq, htarget.size_eq]
    omega
  have hplace : ∀ i, IsField i → codeSize (guard ++ [i]) = codeSize guard + siteSize := by
    intro i hi
    rw [codeSize_append, codeSize_cons, codeSize_nil, hi.size_eq, Nat.add_zero]
  rw [hplace bypass hbypass, ← hplace b hfield] at hmiddle
  refine ((hfront.append hb).append hmiddle).append ?_
  rwa [codeSize_append, hplace b hfield]

/-- The code of a direct tail call, as it was installed. -/
theorem stepCode_of_direct (he : Emits (sourceOf config program resolve) tables e done c)
    (hs : program.steps = before ++ s :: after) {id : Int32} (hid : id ≠ 0)
    (hh : e.out.Holds e.pass depth before s (.tailCall id) epilogue fragment) {n : Nat}
    {site : DirectSite}
    (hcode : direct (Frame.ofProgram program) depth n = .ok (fragment.code, site))
    (hmem : site.shift (e.out.offset (slotCount before)) ∈ e.out.direct) :
    ∃ instrs, StepCode program c (slotCount before) s.slots instrs := by
  obtain ⟨hone, i, hvisits, hop⟩ := Program.visits_of_tailCall hs hh.operation_eq
  have hstop := he.offset_stop hh
  have hguard := bypassOffset_eq hcode
  obtain ⟨guard, hsplit, rfl, hguards⟩ := direct_guards hcode
  have hstop' : ∀ {b t}, IsField b → IsField t → ∀ j, 1 ≤ j → j ≤ s.slots →
      c.offset (slotCount before + j) = c.offset (slotCount before) +
        codeSize (directCode guard ((Frame.ofProgram program).teardown depth) b t) := by
    intro b t hb ht j h1 h2
    rw [hstop j h1 h2, hsplit, codeSize_directCode _ _ (isField_jmp _) isField_nop,
      codeSize_directCode _ _ hb ht]
  have hend : c.offset (slotCount before + 1) = c.offset (slotCount before) + codeSize guard +
      (siteSize + codeSize ((Frame.ofProgram program).teardown depth) + siteSize) := by
    rw [hstop' isField_nop isField_nop 1 (Nat.le_refl _) (by omega),
      codeSize_directCode _ _ isField_nop isField_nop]
    omega
  have hdoor : program.StartsAt c (c.offset (slotCount before) + codeSize guard +
      (siteSize + codeSize ((Frame.ofProgram program).teardown depth) + siteSize)) :=
    ⟨slotCount before + 1, hone ▸ Program.slots_le hs, hend.symm⟩
  have hfields := he.hasCode_fields hmem
  dsimp only [DirectSite.shift] at hfields
  rw [he.out_offset] at hfields
  rcases hfields with ⟨rel, hrel, hb, ht⟩ | ⟨hb, rel, ht⟩
  · refine ⟨_, he.hasCode_direct hs hh hsplit hguard (isField_jmp _) isField_nop (isField_jmp rel)
      hb ht, hguards.encodable_directCode (isField_jmp rel) isField_nop,
      hguards.writesOnly_directCode (isField_jmp rel) isField_nop,
      hstop' (isField_jmp rel) isField_nop, guard ++ [.jmp (.dword rel)],
      (Frame.ofProgram program).teardown depth ++ [.nop 4], by simp [directCode], by simp, ?_⟩
    refine hguards.levelled_bypassing hdoor ?_
    rw [codeSize_cons, codeSize_nil, (isField_jmp rel).size_eq, SignedField.value, hrel]
    omega
  · refine ⟨_, he.hasCode_direct hs hh hsplit hguard (isField_jmp _) isField_nop isField_nop hb ht,
      hguards.encodable_directCode isField_nop (isField_jmp rel),
      hguards.writesOnly_directCode isField_nop (isField_jmp rel),
      hstop' isField_nop (isField_jmp rel), _, [], (List.append_nil _).symm, fun _ => rfl, ?_⟩
    have hexit : program.LeavesAt c (c.offset (slotCount before) + codeSize guard +
        codeSize (.nop 4 :: (Frame.ofProgram program).teardown depth)) := by
      refine ⟨slotCount before, i, id, hvisits, hop, hid, ?_⟩
      rw [hend, codeSize_cons, isField_nop.size_eq]
      omega
    have hplain : ∀ j ∈ .nop 4 :: (Frame.ofProgram program).teardown depth, j.isPlain = true :=
      List.forall_mem_cons.mpr ⟨rfl, plain_teardown _ _⟩
    have hleaves : Levelled (program.StartsAt c) (program.LeavesAt c) (c.offset (slotCount before))
        (guard ++ (.nop 4 :: (Frame.ofProgram program).teardown depth ++ [.jmp (.dword rel)])) :=
      hguards.levelled_leaving hdoor hplain (by simp) rfl (.inr hexit)
    simpa [directCode] using hleaves

/-- Every step of a program has its instructions in the compiled code. -/
theorem stepCode (he : Emits (sourceOf config program resolve) tables e done c)
    (hs : program.steps = before ++ s :: after) :
    ∃ instrs, StepCode program c (slotCount before) s.slots instrs := by
  obtain ⟨depth, operation, epilogue, fragment, _, hh, hdirect⟩ :=
    PassOutput.holds_with_direct he.run_eq hs fun x hx => one_le_slots hx
  cases operation with
  | tailCall id =>
    obtain ⟨rfl, code, hcode, rfl⟩ | ⟨hid, _, code, site, hcode, rfl⟩ :=
      Pass.tailCall_eq_ok hh.lowered
    · rw [he.frame_eq] at hcode
      exact ⟨_, he.stepCode_of_indirect hs hh hcode⟩
    · rw [he.frame_eq] at hcode
      exact he.stepCode_of_direct hs hid hh hcode (hdirect site rfl)
  | _ =>
    refine he.stepCode_of_holds hs hh fun id h => ?_
    cases h

/-- There is a block at the offset of every step whose code is not empty: no other slot starts
inside of it. -/
theorem isBlock_of_stepCode (he : Emits (sourceOf config program resolve) tables e done c)
    (hs : program.steps = before ++ s :: after) {instrs : List Instr}
    (h : StepCode program c (slotCount before) s.slots instrs) (hne : instrs ≠ []) :
    ∃ front, IsBlock c.code (program.StartsAt c) (program.LeavesAt c)
      (c.offset (slotCount before)) front := by
  have hmono : ∀ i j, i ≤ j → j ≤ program.size → c.offset i ≤ c.offset j := he.offset_map.2.1
  have hlast : slotCount before + s.slots ≤ program.size := Program.slots_le hs
  have hone : 1 ≤ s.slots := one_le_slots (show s ∈ program.steps by simp [hs])
  obtain ⟨front, back, rfl, hlive, hlevelled⟩ := h.live
  have hnonempty : front ≠ [] := fun hnil => hne (by rw [hnil, hlive hnil]; rfl)
  have henc := (encodable_append.mp h.encodable).1
  refine ⟨front, hnonempty, h.hasCode.left, henc, hlevelled, ?_⟩
  rintro first rest rfl hfirst hrest ⟨t, ht, hoffset⟩
  have hpos : ∀ part : List Instr, Encodable part → part ≠ [] → 0 < codeSize part := by
    intro part hpart hpart'
    obtain ⟨i, others, rfl⟩ := List.exists_cons_of_ne_nil hpart'
    have hi := (encodable_cons.mp hpart).1.size_pos
    rw [codeSize_cons]
    omega
  have h1 := hpos first (encodable_append.mp henc).1 hfirst
  have h2 := hpos rest (encodable_append.mp henc).2 hrest
  have hstop := h.stop_eq
  rw [codeSize_append, codeSize_append] at hstop
  -- the slot would start before the step, within it or behind it
  rcases Nat.lt_trichotomy t (slotCount before) with hlt | rfl | hgt
  · have := hmono t (slotCount before) (by omega) (by omega)
    omega
  · omega
  · by_cases hin : t ≤ slotCount before + s.slots
    · have := hstop (t - slotCount before) (by omega) (by omega)
      rw [Nat.add_sub_cancel' (by omega)] at this
      omega
    · have := hmono (slotCount before + s.slots) t (by omega) ht
      have := hstop s.slots hone (Nat.le_refl _)
      omega

/-- The code ends behind the last step. -/
theorem offset_steps (he : Emits (sourceOf config program resolve) tables e done c) :
    c.offset (slotCount program.steps) = c.code.length := by
  rw [program.slotCount_steps]
  exact he.offset_map.2.2.1

/-- There is a block at the offset of every step that is not at the end: steps without code share
the block of the next one. -/
theorem exists_block (he : Emits (sourceOf config program resolve) tables e done c)
    (hs : program.steps = before ++ after) :
    c.code.length ≤ c.offset (slotCount before) ∨
      ∃ instrs, IsBlock c.code (program.StartsAt c) (program.LeavesAt c)
        (c.offset (slotCount before)) instrs := by
  induction after generalizing before with
  | nil =>
    rw [List.append_nil] at hs
    rw [← hs]
    exact .inl (Nat.le_of_eq he.offset_steps.symm)
  | cons s after ih =>
    obtain ⟨instrs, hstep⟩ := he.stepCode hs
    by_cases hne : instrs = []
    · have hone : 1 ≤ s.slots := one_le_slots (show s ∈ program.steps by simp [hs])
      have hnext := hstep.stop_eq s.slots hone (Nat.le_refl _)
      have hcount : slotCount (before ++ [s]) = slotCount before + s.slots := by
        rw [slotCount_append, slotCount_cons, slotCount_nil, Nat.add_zero]
      rw [hne, codeSize_nil, Nat.add_zero] at hnext
      have hlater := @ih (before ++ [s]) (by simp [hs])
      rwa [hcount, hnext] at hlater
    · exact .inr (he.isBlock_of_stepCode hs hstep hne)

/-- The code of a compiled program is divided into blocks at the offsets of its slots. -/
theorem hasBlocks (he : Emits (sourceOf config program resolve) tables e done c) :
    HasBlocks c.code (program.StartsAt c) (program.LeavesAt c) := by
  rintro _ ⟨t, ht, rfl⟩
  rcases program.isBoundary_or_second ht with
    ⟨before, after, hs, rfl⟩ | ⟨before, s, after, hs, htwo, rfl⟩
  · exact he.exists_block hs
  · obtain ⟨instrs, hstep⟩ := he.stepCode hs
    have hcount : slotCount (before ++ [s]) = slotCount before + 2 := by
      rw [slotCount_append, slotCount_cons, slotCount_nil, htwo]
    have hsame : c.offset (slotCount before + 1) = c.offset (slotCount (before ++ [s])) := by
      rw [hcount, hstep.stop_eq 1 (by omega) (by omega), hstep.stop_eq 2 (by omega) (by omega)]
    rw [hsame]
    exact he.exists_block (show program.steps = before ++ [s] ++ after by simp [hs])

/-- The code from a step on can be read back, and it writes what the frame lets it write. -/
theorem reads_back_from (he : Emits (sourceOf config program resolve) tables e done c)
    (hs : program.steps = before ++ after) :
    ∃ instrs, c.code.drop (c.offset (slotCount before)) = encodeAll instrs ∧ Encodable instrs ∧
      WritesOnly (Frame.ofProgram program).writable instrs := by
  induction after generalizing before with
  | nil =>
    rw [List.append_nil] at hs
    refine ⟨[], ?_, encodable_nil, writesOnly_nil⟩
    rw [← hs, he.offset_steps, List.drop_length]
    rfl
  | cons s after ih =>
    obtain ⟨front, hstep⟩ := he.stepCode hs
    obtain ⟨back, hback, henc, hwrites⟩ := @ih (before ++ [s]) (by simp [hs])
    have hone : 1 ≤ s.slots := one_le_slots (show s ∈ program.steps by simp [hs])
    refine ⟨front ++ back, ?_, encodable_append.mpr ⟨hstep.encodable, henc⟩,
      writesOnly_append.mpr ⟨hstep.writes, hwrites⟩⟩
    obtain ⟨rest, hrest⟩ := hstep.hasCode
    rw [slotCount_append, slotCount_cons, slotCount_nil, Nat.add_zero,
      hstep.stop_eq s.slots hone (Nat.le_refl _), ← List.drop_drop, hrest,
      List.drop_left' (length_encodeAll front)] at hback
    rw [hrest, hback, encodeAll_append]

end Emits

end NativeForge
