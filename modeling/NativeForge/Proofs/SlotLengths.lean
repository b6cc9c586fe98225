import NativeForge.Proofs.Relowering

/-!
# Lengths of slots

A layout gives every slot of a program a length: the distance from its offset to the next one. The
second slot of a wide load has no length of its own. For every other slot the output of a pass
holds the fragment of its operation, and the epilogue that an exit jumps to is the offset of the
first exit in the same output. From this follow the two facts that all statements about repeated
passes rest on: a slot that is no branch has one length in all passes, and the length of a branch
is the one that its form and its distance give.
-/

namespace NativeForge

open X64 Virtual

namespace Virtual

/-- The operation of a step, if it means one. -/
def Step.operation? (s : Step) : Option Operation := s.operation.toOption

/-- A step means an operation exactly when it was read as one. -/
theorem Step.operation?_eq_some {s : Step} {operation : Operation} :
    s.operation? = some operation ↔ s.operation = .ok operation := toOption_eq_some

namespace Program

/-- The operation that starts in a slot. -/
def operation? (p : Program) (k : Nat) : Option Operation :=
  (p.steps.find? fun s => s.index == k).bind Step.operation?

/-- The slot of the first exit. -/
def firstExit? (p : Program) : Option Nat :=
  (p.steps.find? fun s => s.operation? == some .exit).map Step.index

/-- The slot of the first exit, if it stands before the given slot. -/
def exitBefore? (p : Program) (k : Nat) : Option Nat := p.firstExit?.filter (· < k)

/-- The form of the branch in a slot: of a jump, a conditional jump, or an exit behind the first
one. -/
def form? (p : Program) (k : Nat) : Option BranchForm :=
  (p.operation? k).bind (Pass.form? (p.exitBefore? k).isSome)

/-- The slot holds a jump, a conditional jump, or an exit behind the first one. -/
def isBranch (p : Program) (k : Nat) : Bool :=
  match p.operation? k with
  | some (.jump _) | some (.branch ..) => true
  | some .exit => (p.exitBefore? k).isSome
  | _ => false

/-- A slot holds a branch exactly when it has a form. -/
theorem isBranch_eq (p : Program) (k : Nat) : p.isBranch k = (p.form? k).isSome := by
  unfold isBranch form?
  cases p.operation? k with
  | none => rfl
  | some operation =>
    rw [Option.bind_some]
    cases operation with
    | exit => cases p.exitBefore? k <;> rfl
    | _ => rfl

variable {p : Program} {before after : List Step} {s : Step} {k : Nat}

/-- A step is numbered by the slots before it. -/
theorem index_eq (h : p.steps = before ++ s :: after) : s.index = slotCount before := by
  have hindex := (stepsFrom_split h).1
  omega

/-- Every step of a program takes a slot. -/
theorem slots_pos {x : Step} (h : x ∈ p.steps) : 1 ≤ x.slots := one_le_slots h

/-- Steps before a cut have numbers before it. -/
theorem index_lt_of_mem {x : Step} (h : p.steps = before ++ after) (hx : x ∈ before) :
    x.index < slotCount before := by
  obtain ⟨front, back, rfl⟩ := List.append_of_mem hx
  have hslots : 1 ≤ x.slots := slots_pos (by rw [h]; simp)
  rw [List.append_assoc] at h
  rw [index_eq h, slotCount_append, slotCount_cons]
  omega

/-- Steps behind a cut have numbers behind it. -/
theorem le_index_of_mem {x : Step} (h : p.steps = before ++ after) (hx : x ∈ after) :
    slotCount before ≤ x.index := by
  obtain ⟨front, back, rfl⟩ := List.append_of_mem hx
  rw [← List.append_assoc] at h
  rw [index_eq h, slotCount_append]
  omega

/-- Every slot of a program belongs to one of its steps. -/
theorem exists_step (hk : k < p.size) :
    ∃ before s after, p.steps = before ++ s :: after ∧ slotCount before ≤ k ∧
      k < slotCount before + s.slots := by
  rw [← slotCount_steps] at hk
  generalize p.steps = steps at hk
  induction steps generalizing k with
  | nil => exact absurd hk (Nat.not_lt_zero k)
  | cons s rest ih =>
    by_cases hin : k < s.slots
    · exact ⟨[], s, rest, rfl, Nat.zero_le k, by simpa using hin⟩
    · rw [slotCount_cons] at hk
      obtain ⟨before, x, after, rfl, hle, hlt⟩ := ih (show k - s.slots < slotCount rest by omega)
      refine ⟨s :: before, x, after, rfl, ?_, ?_⟩
      · rw [slotCount_cons]
        omega
      · rw [slotCount_cons]
        omega

/-- The operation of a step starts in the step's first slot. -/
theorem operation?_of_split (h : p.steps = before ++ s :: after) :
    p.operation? (slotCount before) = s.operation? := by
  have hbefore : before.find? (fun x => x.index == slotCount before) = none := by
    rw [List.find?_eq_none]
    intro x hx
    have hlt := index_lt_of_mem h hx
    simp only [beq_iff_eq]
    omega
  have hs : s.index = slotCount before := index_eq h
  unfold operation?
  rw [h, List.find?_append, hbefore, Option.none_or, List.find?_cons_of_pos (by simpa using hs)]
  rfl

/-- No operation starts in the second slot of a step. -/
theorem operation?_inside (h : p.steps = before ++ s :: after) (hlt : slotCount before < k)
    (hin : k < slotCount before + s.slots) : p.operation? k = none := by
  have hnone : p.steps.find? (fun x => x.index == k) = none := by
    rw [List.find?_eq_none]
    intro x hx
    simp only [beq_iff_eq]
    rw [h, List.mem_append, List.mem_cons] at hx
    rcases hx with hx | rfl | hx
    · have hlt := index_lt_of_mem h hx
      omega
    · have hs := index_eq h
      omega
    · have h' : p.steps = (before ++ [s]) ++ after := by simp [h]
      have hle := le_index_of_mem h' hx
      rw [slotCount_append, slotCount_cons, slotCount_nil] at hle
      omega
  unfold operation?
  rw [hnone]
  rfl

/-- A step leaves the program exactly when it is found as an exit. -/
theorem isExit_iff (x : Step) : (x.operation? == some .exit) = true ↔ x.IsExit := by
  rw [beq_iff_eq, Step.operation?_eq_some, Step.IsExit]

/-- There is no exit before a step that no exit precedes. -/
theorem exitBefore?_eq_none (h : p.steps = before ++ after) (hx : ∀ x ∈ before, ¬x.IsExit) :
    p.exitBefore? (slotCount before) = none := by
  have hbefore : before.find? (fun x => x.operation? == some .exit) = none := by
    rw [List.find?_eq_none]
    intro x hmem
    rw [isExit_iff]
    exact hx x hmem
  rw [exitBefore?, Option.filter_eq_none_iff]
  intro e he
  rw [firstExit?, h, List.find?_append, hbefore, Option.none_or] at he
  obtain ⟨x, hfound, rfl⟩ := Option.map_eq_some_iff.mp he
  have hle := le_index_of_mem h (List.mem_of_find?_eq_some hfound)
  simp only [decide_eq_true_eq]
  omega

/-- The exit before a step is the first one. -/
theorem exitBefore?_eq_some {front back : List Step} {x : Step}
    (h : p.steps = (front ++ x :: back) ++ after) (hfront : ∀ y ∈ front, ¬y.IsExit)
    (hx : x.IsExit) : p.exitBefore? (slotCount (front ++ x :: back)) = some (slotCount front) := by
  have hnone : front.find? (fun y => y.operation? == some .exit) = none := by
    rw [List.find?_eq_none]
    intro y hmem
    rw [isExit_iff]
    exact hfront y hmem
  have hfound : p.firstExit? = some (slotCount front) := by
    have h' := h
    rw [List.append_assoc, List.cons_append] at h'
    have hhead : (x :: (back ++ after)).find? (fun y => y.operation? == some .exit) = some x :=
      List.find?_cons_of_pos (by rw [isExit_iff]; exact hx)
    rw [firstExit?, h', List.find?_append, hnone, Option.none_or, hhead, Option.map_some,
      index_eq h']
  have hlt := index_lt_of_mem h (show x ∈ front ++ x :: back by simp)
  have hindex : x.index = slotCount front := by
    rw [List.append_assoc, List.cons_append] at h
    exact index_eq h
  rw [exitBefore?, hfound, Option.filter_some, if_pos (by simpa [← hindex] using hlt)]

end Program

end Virtual

namespace Layout

/-- The offset of a slot. -/
def offset (layout : Layout) (k : Nat) : Nat := layout.offsets.getD k 0

/-- The length of a slot. -/
def length (layout : Layout) (k : Nat) : Nat := layout.offset (k + 1) - layout.offset k

/-- Offsets up to the end of the slots never go down. -/
def IsMonotone (layout : Layout) (slots : Nat) : Prop :=
  ∀ i j, i ≤ j → j ≤ slots → layout.offset i ≤ layout.offset j

/-- The offset behind a slot is the offset of the slot and its length. -/
theorem IsMonotone.offset_succ {layout : Layout} {slots k : Nat} (h : layout.IsMonotone slots)
    (hk : k < slots) : layout.offset (k + 1) = layout.offset k + layout.length k := by
  have hle := h k (k + 1) (by omega) (by omega)
  unfold length
  omega

end Layout

/-- The layout of the output of a pass. -/
def PassOutput.layout (out : PassOutput) : Layout := ⟨out.offsets, out.code.size⟩

/-- Fragments are not longer than the pass allows. -/
theorem Pass.codeSize_le_of_place {p : Pass} {depth : UInt32} {steps : List Step} {start : Nat}
    {epilogue : Option Nat} {placed : List Placed} {f : Placed}
    (h : p.place depth steps start epilogue = .ok placed) (hf : f ∈ placed) :
    codeSize f.fragment.code ≤ p.maxInsnSize := by
  induction steps generalizing start epilogue placed with
  | nil =>
    cases h
    cases hf
  | cons step rest ih =>
    obtain ⟨operation, fragment, tail, _, _, hsize, ht, rfl⟩ := place_cons.mp h
    rcases List.mem_cons.mp hf with rfl | hf
    · exact hsize
    · exact ih ht hf

/-- How the operation of a slot stands in the output of a pass over a program. -/
structure PassOutput.Lowers (out : PassOutput) (p : Pass) (program : Program) (depth : UInt32)
    (k : Nat) (operation : Operation) (fragment : Fragment) : Prop where
  /-- The operation starts in the slot. -/
  operation_eq : program.operation? k = some operation
  /-- The depth is that of the frame. -/
  isDepth : p.frame.IsDepth depth
  /-- The fragment is the operation in native instructions. -/
  lowered : p.lower depth k ((program.exitBefore? k).map out.offset) operation = .ok fragment
  /-- The fragment stands in the code at the offset of the slot. -/
  code_eq : ∃ rest, out.codeFrom (out.offset k) = encodeAll fragment.code ++ rest
  /-- The next offset is the end of the fragment. -/
  offset_succ : out.offset (k + 1) = out.offset k + codeSize fragment.code
  /-- The fragment is not longer than the pass allows. -/
  codeSize_le : codeSize fragment.code ≤ p.maxInsnSize

/-- Every slot of a program has no length, as the second slot of a wide load, or holds the fragment
of its operation. -/
theorem PassOutput.lowers_of_run {p : Pass} {program : Program} {out : PassOutput} {k : Nat}
    (h : p.run program.steps = .ok out) (hk : k < program.size) :
    (program.operation? k = none ∧ out.offset (k + 1) = out.offset k) ∨
      ∃ depth operation fragment, out.Lowers p program depth k operation fragment := by
  have hslots : ∀ x ∈ program.steps, 1 ≤ x.slots := fun x hx => Program.slots_pos hx
  obtain ⟨before, s, after, hs, hle, hlt⟩ := Program.exists_step hk
  obtain ⟨_, depth, placed, hd, hp, rfl⟩ := Pass.run_eq_ok h
  rw [hs] at hp hslots
  obtain ⟨pa, tail, operation, fragment, ha, hplaced, hh⟩ := holds_of_place hp hslots
  by_cases hfirst : k = slotCount before
  · -- the first slot of the step
    subst hfirst
    refine .inr ⟨depth, operation, fragment, ?_⟩
    have hbound : codeSize fragment.code ≤ p.maxInsnSize :=
      Pass.codeSize_le_of_place hp (by
        rw [hplaced]
        exact List.mem_append_right _ (List.mem_cons_self ..))
    have hepilogue : (program.exitBefore? (slotCount before)).map
        (ofPlaced (p.frame.prologue depth) placed).offset = epilogueAfter none pa := by
      rcases hh.epilogue_eq with ⟨hn, hx⟩ | ⟨front, x, back, rfl, hfront, hx, he⟩
      · rw [Program.exitBefore?_eq_none hs hx, hn]
        rfl
      · rw [Program.exitBefore?_eq_some hs hfront hx, he]
        rfl
    exact {
      operation_eq := by
        rw [Program.operation?_of_split hs, Step.operation?_eq_some]
        exact hh.operation_eq
      isDepth := hd
      lowered := by
        rw [hepilogue, ← Program.index_eq hs]
        exact hh.lowered
      code_eq := hh.code_eq
      offset_succ := hh.stop_eq 1 (by omega) (by omega)
      codeSize_le := hbound }
  · -- a further slot of the step: both of its ends are the end of the fragment
    refine .inl ⟨Program.operation?_inside hs (by omega) hlt, ?_⟩
    have h1 := hh.stop_eq (k - slotCount before) (by omega) (by omega)
    have h2 := hh.stop_eq (k + 1 - slotCount before) (by omega) (by omega)
    rw [show slotCount before + (k - slotCount before) = k by omega] at h1
    rw [show slotCount before + (k + 1 - slotCount before) = k + 1 by omega] at h2
    rw [h1, h2]

/-- Every fragment of a pass starts and ends where the offsets of its slot say. -/
theorem PassOutput.offset_of_mem {p : Pass} {program : Program} {depth : UInt32}
    {placed : List Placed} {f : Placed}
    (hp : p.place depth program.steps (codeSize (p.frame.prologue depth)) none = .ok placed)
    (hf : f ∈ placed) :
    (ofPlaced (p.frame.prologue depth) placed).offset f.index = f.start ∧
      (ofPlaced (p.frame.prologue depth) placed).offset (f.index + 1) = f.stop := by
  obtain ⟨before, s, after, pa, pb, hs, hplaced, ha⟩ := Pass.mem_of_place hp hf
  have hslots : ∀ x ∈ program.steps, 1 ≤ x.slots := fun x hx => Program.slots_pos hx
  have hone := hslots s (by simp [hs])
  have hindex := Program.index_eq hs
  rw [hs] at hp hslots
  obtain ⟨pa', tail, operation, fragment, ha', heq, hh⟩ := holds_of_place hp hslots
  rw [ha, Except.ok.injEq] at ha'
  subst ha'
  obtain ⟨hfe, _⟩ := List.cons.inj (List.append_cancel_left (hplaced.symm.trans heq))
  have hstop := hh.stop_eq 1 (by omega) hone
  rw [hfe]
  dsimp only [Placed.stop]
  rw [hindex]
  exact ⟨rfl, hstop⟩

/-- A frame has one depth. -/
theorem Frame.IsDepth.unique {f : Frame} {depth depth' : UInt32} (h : f.IsDepth depth)
    (h' : f.IsDepth depth') : depth' = depth := by
  unfold Frame.IsDepth at h h'
  exact UInt32.toNat_inj.mp (h'.trans h.symm)

namespace Source

variable {s : Source} {before before' : Layout} {base base' : Option Address}
  {padding padding' : Bool} {out out' : PassOutput} {k : Nat}

/-- Two passes of one source are over one program for one target. -/
theorem pass_akin (s : Source) (offsets offsets' : Array Nat) (base base' : Option Address)
    (padding padding' : Bool) :
    (s.pass offsets base padding).Akin (s.pass offsets' base' padding') :=
  ⟨rfl, rfl, rfl⟩

/-- The layout of a pass has one offset per slot and one for the end, it never goes down, and it
ends with the code. -/
theorem layout_of_run (h : s.run before.offsets base padding = .ok out) :
    out.layout.IsMonotone s.program.size ∧ out.offsets.size = s.program.size + 1 ∧
      out.layout.offset s.program.size = out.layout.size ∧
      before.offsets.size = s.program.size + 1 := by
  obtain ⟨hsize, hmono, hend, _⟩ :=
    PassOutput.offsets_of_run h (fun x hx => Program.slots_pos hx)
  rw [Program.slotCount_steps] at hsize hmono hend
  exact ⟨hmono, hsize, hend, (Pass.run_eq_ok h).1⟩

/-- A slot that is no branch has one length in all passes. -/
theorem length_of_form_none (h : s.run before.offsets base padding = .ok out)
    (h' : s.run before'.offsets base' padding' = .ok out') (hk : k < s.program.size)
    (hform : s.program.form? k = none) : out'.layout.length k = out.layout.length k := by
  have hlength : ∀ o : PassOutput, o.layout.length k = o.offset (k + 1) - o.offset k := fun _ => rfl
  rw [hlength, hlength]
  rcases PassOutput.lowers_of_run h hk with ⟨hn, hz⟩ | ⟨depth, operation, f, hf⟩
  · rcases PassOutput.lowers_of_run h' hk with ⟨_, hz'⟩ | ⟨_, operation', _, hf'⟩
    · omega
    · rw [hf'.operation_eq] at hn
      cases hn
  · rcases PassOutput.lowers_of_run h' hk with ⟨hn, _⟩ | ⟨depth', operation', f', hf'⟩
    · rw [hf.operation_eq] at hn
      cases hn
    · obtain rfl : operation = operation' :=
        Option.some.inj (hf.operation_eq.symm.trans hf'.operation_eq)
      obtain rfl := hf'.isDepth.unique hf.isDepth
      have hnone : Pass.form? ((s.program.exitBefore? k).map out.offset).isSome operation = none := by
        rw [Program.form?, hf.operation_eq] at hform
        rw [Option.isSome_map]
        exact hform
      have halike := (Pass.lower_alike_of_form_none (s.pass_akin _ _ _ _ _ _)
        (by rw [Option.isSome_map, Option.isSome_map]) hnone hf.lowered hf'.lowered).1
      have hsize := halike.codeSize_eq
      have hs := hf.offset_succ
      have hs' := hf'.offset_succ
      omega

/-- The length of a branch is the one that its form and its distance give. -/
theorem sized_of_form {form : BranchForm} (h : s.run before.offsets base padding = .ok out)
    (hmono : before.IsMonotone s.program.size) (hk : k < s.program.size)
    (hform : s.program.form? k = some form) :
    ∃ operation distance, s.program.operation? k = some operation ∧
      (s.pass before.offsets base padding).reach k ((s.program.exitBefore? k).map out.offset)
        operation = .ok distance ∧
      form.Sized padding (before.length k) distance (out.layout.length k) := by
  obtain ⟨operation, hop, hform⟩ := Option.bind_eq_some_iff.mp hform
  rcases PassOutput.lowers_of_run h hk with ⟨hn, _⟩ | ⟨depth, operation', f, hf⟩
  · rw [hop] at hn
    cases hn
  · obtain rfl : operation = operation' := Option.some.inj (hop.symm.trans hf.operation_eq)
    have hsome : Pass.form? ((s.program.exitBefore? k).map out.offset).isSome operation =
        some form := by
      rw [Option.isSome_map]
      exact hform
    have hle : (s.pass before.offsets base padding).offset k ≤
        (s.pass before.offsets base padding).offset (k + 1) :=
      hmono k (k + 1) (by omega) (by omega)
    obtain ⟨distance, hd, hsized⟩ := Pass.sized_lower hle hsome hf.lowered
    have hsize : out.layout.length k = codeSize f.code := by
      have hs := hf.offset_succ
      show out.offset (k + 1) - out.offset k = _
      omega
    rw [hsize]
    exact ⟨operation, distance, hop, hd, hsized⟩

end Source

end NativeForge
