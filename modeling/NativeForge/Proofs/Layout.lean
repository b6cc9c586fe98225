import NativeForge.Proofs.CallSequences

/-!
# Layout of an emission pass

A pass puts its fragments one behind the other. For every cut of the steps of a program into a
part before and a part after, the offset map holds the size of the prologue and of all fragments
before the cut, and the code holds the fragments after the cut from that offset on. The epilogue
that a step sees is the start of the first exit before it.
-/

namespace NativeForge

open X64 Virtual

namespace Virtual

/-- The number of slots that a list of steps takes. -/
def slotCount (steps : List Step) : Nat := (steps.map Step.slots).sum

/-- No steps take no slots. -/
@[simp]
theorem slotCount_nil : slotCount [] = 0 := rfl

/-- Slots of a list of steps are those of its head and of its tail. -/
@[simp]
theorem slotCount_cons (s : Step) (rest : List Step) :
    slotCount (s :: rest) = s.slots + slotCount rest := by
  simp [slotCount]

/-- Slots of lists of steps add up. -/
@[simp]
theorem slotCount_append (front back : List Step) :
    slotCount (front ++ back) = slotCount front + slotCount back := by
  simp [slotCount]

/-- The register that a fault-tolerant load fills. -/
def Operation.probe? : Operation → Option VReg
  | .probe _ _ dst _ _ => some dst
  | _ => none

/-- The step leaves the program. -/
def Step.IsExit (s : Step) : Prop := s.operation = .ok .exit

/-- A slot that opens no wide load is a step of its own. -/
theorem stepsFrom_single {i : Insn} (hw : ¬i.isWideLoad = true) (index : Nat) (rest : List Insn) :
    stepsFrom index (i :: rest) = ⟨index, 1, i.operation⟩ :: stepsFrom (index + 1) rest := by
  rw [stepsFrom.eq_def]
  exact if_neg hw

/-- The slots that a program consists of are exactly the slots of its steps. -/
theorem slotCount_stepsFrom (index : Nat) (insns : List Insn) :
    slotCount (stepsFrom index insns) = insns.length := by
  fun_induction stepsFrom index insns with
  | case1 => rfl
  | case2 => rfl
  | case3 index i _ next rest ih =>
    rw [slotCount_cons, ih]
    simp only [List.length_cons]
    omega
  | case4 index i rest _ ih =>
    rw [slotCount_cons, ih]
    simp only [List.length_cons]
    omega

/-- The slots of a program are those of its steps. -/
theorem Program.slotCount_steps (p : Program) : slotCount p.steps = p.size :=
  slotCount_stepsFrom 0 p.insns

/-- The slots of a step are slots of the program. -/
theorem Program.slots_le {p : Program} {before after : List Step} {s : Step}
    (hs : p.steps = before ++ s :: after) : slotCount before + s.slots ≤ p.size := by
  have hcount := p.slotCount_steps
  rw [hs, slotCount_append, slotCount_cons] at hcount
  omega

/-- Where a step of a program stands and what it was read from: a step is numbered by the slots
before it, and it is the operation of its slot or of a wide load and the slot behind it. -/
theorem stepsFrom_split {index : Nat} {insns : List Insn} {before after : List Step} {s : Step}
    (h : stepsFrom index insns = before ++ s :: after) :
    s.index = index + slotCount before ∧
    ∃ i rest, insns.drop (slotCount before) = i :: rest ∧
      after = stepsFrom (s.index + s.slots) (rest.drop (s.slots - 1)) ∧
      ((i.isWideLoad = true ∧ rest = [] ∧ s.slots = 1 ∧ s.operation = .error .truncatedWideLoad) ∨
        (i.isWideLoad = true ∧ s.slots = 2 ∧ ∃ next tail, rest = next :: tail ∧
          s.operation = i.wideOperation next) ∨
        (i.isWideLoad = false ∧ s.slots = 1 ∧ s.operation = i.operation)) := by
  induction before generalizing index insns with
  | nil =>
    fun_cases stepsFrom index insns with
    | case1 => simp [stepsFrom] at h
    | case2 i hw =>
      simp only [stepsFrom, hw, if_true, List.nil_append, List.cons.injEq] at h
      obtain ⟨rfl, rfl⟩ := h
      exact ⟨rfl, i, [], rfl, rfl, .inl ⟨hw, rfl, rfl, rfl⟩⟩
    | case3 i hw next rest =>
      simp only [stepsFrom, hw, if_true, List.nil_append, List.cons.injEq] at h
      obtain ⟨rfl, rfl⟩ := h
      exact ⟨rfl, i, next :: rest, rfl, rfl, .inr (.inl ⟨hw, rfl, next, rest, rfl, rfl⟩)⟩
    | case4 i rest hw =>
      rw [stepsFrom_single hw, List.nil_append, List.cons.injEq] at h
      obtain ⟨rfl, rfl⟩ := h
      exact ⟨rfl, i, rest, rfl, rfl, .inr (.inr ⟨by simpa using hw, rfl, rfl⟩)⟩
  | cons first before ih =>
    fun_cases stepsFrom index insns with
    | case1 => simp [stepsFrom] at h
    | case2 i hw => simp [stepsFrom, hw] at h
    | case3 i hw next rest =>
      simp only [stepsFrom, hw, if_true, List.cons_append, List.cons.injEq] at h
      obtain ⟨rfl, h⟩ := h
      obtain ⟨hi, j, tail, hd, hrest⟩ := ih h
      refine ⟨by rw [hi, slotCount_cons]; simp only []; omega, j, tail, ?_, hrest⟩
      rw [slotCount_cons, show 2 + slotCount before = slotCount before + 1 + 1 by omega]
      exact hd
    | case4 i rest hw =>
      rw [stepsFrom_single hw, List.cons_append, List.cons.injEq] at h
      obtain ⟨rfl, h⟩ := h
      obtain ⟨hi, j, tail, hd, hrest⟩ := ih h
      refine ⟨by rw [hi, slotCount_cons]; simp only []; omega, j, tail, ?_, hrest⟩
      rw [slotCount_cons, show 1 + slotCount before = slotCount before + 1 by omega]
      exact hd

/-- Every step of a program takes a slot. -/
theorem one_le_slots {index : Nat} {insns : List Insn} {s : Step} (h : s ∈ stepsFrom index insns) :
    1 ≤ s.slots := by
  obtain ⟨before, after, hs⟩ := List.append_of_mem h
  obtain ⟨_, _, _, _, _, ⟨_, _, h1, _⟩ | ⟨_, h2, _⟩ | ⟨_, h1, _⟩⟩ := stepsFrom_split hs <;> omega

end Virtual

/-- The number is the frame's stack area, rounded up to a multiple of eight. -/
def Frame.IsDepth (f : Frame) (depth : UInt32) : Prop :=
  depth.toNat = roundUp f.stackDepth.toNat 8

/-- The rounded depth is exact, or there is none. -/
theorem Frame.roundedDepth_eq_ok {ε : Type} {f : Frame} {depth : UInt32} :
    (f.roundedDepth : Result ε UInt32) = .ok depth ↔ f.IsDepth depth := by
  unfold Frame.roundedDepth Frame.IsDepth
  constructor
  · split
    · intro h
      cases h
      rw [UInt32.toNat_ofNat']
      exact Nat.mod_eq_of_lt (by omega)
    · simp
  · intro h
    have hd : depth.toNat < UInt32.size := depth.toNat_lt
    rw [if_pos (h ▸ hd), ← h]
    simp

/-- The bytes that a list of fragments takes. -/
def placedSize (placed : List Placed) : Nat :=
  (placed.map fun f => codeSize f.fragment.code).sum

/-- The epilogue that is known behind a list of fragments. -/
def epilogueAfter (epilogue : Option Nat) (placed : List Placed) : Option Nat :=
  placed.foldl (fun known f => if f.fragment.epilogue then some f.start else known) epilogue

/-- The offset map of a list of fragments that starts at an offset. -/
def offsetsFrom (start : Nat) (placed : List Placed) : List Nat :=
  start :: placed.flatMap fun f => List.replicate f.slots f.stop

namespace Pass

variable {p : Pass} {depth : UInt32}

/-- What placing a step and the steps behind it consists of. -/
theorem place_cons {step : Step} {rest : List Step} {start : Nat} {epilogue : Option Nat}
    {placed : List Placed} :
    p.place depth (step :: rest) start epilogue = .ok placed ↔
      ∃ operation fragment tail, step.operation = .ok operation ∧
        p.lower depth step.index epilogue operation = .ok fragment ∧
        codeSize fragment.code ≤ p.maxInsnSize ∧
        p.place depth rest (start + codeSize fragment.code)
          (if fragment.epilogue then some start else epilogue) = .ok tail ∧
        placed = ⟨step.index, step.slots, start, fragment⟩ :: tail := by
  rw [place, bind_eq_ok]
  constructor
  · rintro ⟨operation, ho, h⟩
    obtain ⟨fragment, hf, h⟩ := bind_eq_ok.mp h
    dsimp only at h
    by_cases hm : p.maxInsnSize < codeSize fragment.code
    · rw [if_pos hm] at h
      exact absurd h (defect_ne_ok _ _)
    · rw [if_neg hm] at h
      obtain ⟨tail, ht, h⟩ := bind_eq_ok.mp h
      exact ⟨operation, fragment, tail, mapError_eq_ok.mp ho, hf, by omega, ht,
        (pure_eq_ok.mp h).symm⟩
  · rintro ⟨operation, fragment, tail, ho, hf, hm, ht, rfl⟩
    refine ⟨operation, mapError_eq_ok.mpr ho, bind_eq_ok.mpr ⟨fragment, hf, ?_⟩⟩
    dsimp only
    rw [if_neg (by omega)]
    exact bind_eq_ok.mpr ⟨tail, ht, rfl⟩

/-- Steps are placed one behind the other: the second part of a program is placed behind the
first part and sees the epilogue of the first part. -/
theorem place_append {front back : List Step} {start : Nat} {epilogue : Option Nat}
    {placed : List Placed} (h : p.place depth (front ++ back) start epilogue = .ok placed) :
    ∃ before behind, p.place depth front start epilogue = .ok before ∧
      p.place depth back (start + placedSize before) (epilogueAfter epilogue before) = .ok behind ∧
      placed = before ++ behind := by
  induction front generalizing start epilogue placed with
  | nil => exact ⟨[], placed, rfl, h, rfl⟩
  | cons step front ih =>
    rw [List.cons_append, place_cons] at h
    obtain ⟨operation, fragment, tail, ho, hf, hm, ht, rfl⟩ := h
    obtain ⟨before, behind, hb, ha, rfl⟩ := ih ht
    refine ⟨_ :: before, behind, place_cons.mpr ⟨_, _, _, ho, hf, hm, hb, rfl⟩, ?_, rfl⟩
    rw [show start + placedSize (⟨step.index, step.slots, start, fragment⟩ :: before) =
      start + codeSize fragment.code + placedSize before by simp [placedSize]; omega]
    exact ha

/-- Every fragment stands for a step, behind the fragments of the steps before it. -/
theorem mem_of_place {steps : List Step} {start : Nat} {epilogue : Option Nat}
    {placed : List Placed} {f : Placed} (h : p.place depth steps start epilogue = .ok placed)
    (hf : f ∈ placed) :
    ∃ before s after pa pb, steps = before ++ s :: after ∧ placed = pa ++ f :: pb ∧
      p.place depth before start epilogue = .ok pa := by
  induction steps generalizing start epilogue placed with
  | nil =>
    cases h
    simp at hf
  | cons step rest ih =>
    obtain ⟨operation, fragment, tail, ho, hl, hm, ht, rfl⟩ := place_cons.mp h
    rcases List.mem_cons.mp hf with rfl | hf
    · exact ⟨[], step, rest, [], tail, rfl, rfl, rfl⟩
    · obtain ⟨before, s, after, pa, pb, rfl, rfl, ha⟩ := ih ht hf
      exact ⟨step :: before, s, after, _ :: pa, pb, rfl, rfl,
        place_cons.mpr ⟨_, _, _, ho, hl, hm, ha, rfl⟩⟩

/-- A jump goes back two bytes to itself, or over the distance that the offset map gives. -/
theorem lower_jump {index : Nat} {epilogue : Option Nat} {off : Int16} {fragment : Fragment}
    (h : p.lower depth index epilogue (.jump off) = .ok fragment) :
    ∃ distance code, (off = -1 ∧ distance = -2 ∨ off ≠ -1 ∧ p.jumpDistance index off = .ok distance) ∧
      p.jump index distance true = .ok code ∧ fragment = { code := code } := by
  rw [lower] at h
  by_cases ho : off = -1
  · rw [if_pos ho] at h
    obtain ⟨distance, hd, h⟩ := bind_eq_ok.mp h
    obtain ⟨code, hc, h⟩ := bind_eq_ok.mp h
    exact ⟨distance, code, .inl ⟨ho, (pure_eq_ok.mp hd).symm⟩, hc, (pure_eq_ok.mp h).symm⟩
  · rw [if_neg ho] at h
    obtain ⟨distance, hd, h⟩ := bind_eq_ok.mp h
    obtain ⟨code, hc, h⟩ := bind_eq_ok.mp h
    exact ⟨distance, code, .inr ⟨ho, hd⟩, hc, (pure_eq_ok.mp h).symm⟩

/-- A fragment is the epilogue exactly when it leaves the program and no epilogue is known. -/
theorem lower_epilogue {index : Nat} {epilogue : Option Nat} {operation : Operation}
    {fragment : Fragment} (h : p.lower depth index epilogue operation = .ok fragment) :
    fragment.epilogue = true ↔ operation = .exit ∧ epilogue = none := by
  cases operation with
  | exit =>
    cases epilogue with
    | none =>
      cases h
      simp
    | some start =>
      obtain ⟨code, _, h⟩ := bind_eq_ok.mp h
      cases h
      simp
  | call id subprogram =>
    obtain ⟨_, _, _, _, _, rfl⟩ := call_eq_ok.mp h
    simp
  | tailCall id =>
    obtain ⟨_, _, _, rfl⟩ | ⟨_, _, _, _, _, rfl⟩ := tailCall_eq_ok h <;> simp
  | fetch =>
    obtain ⟨code, _, h⟩ := bind_eq_ok.mp h
    cases h
    simp
  | jump off =>
    obtain ⟨_, _, _, _, rfl⟩ := lower_jump h
    simp
  | branch =>
    obtain ⟨code, _, h⟩ := bind_eq_ok.mp h
    cases h
    simp
  | _ =>
    cases h
    simp

/-- Only a fault-tolerant load names a register slot to clear, the one of its destination, and only
a call without an address waits. -/
theorem lower_marks {index : Nat} {epilogue : Option Nat} {operation : Operation}
    {fragment : Fragment} (h : p.lower depth index epilogue operation = .ok fragment) :
    fragment.probe = operation.probe?.map (fun dst => p.abi.slot dst.native) ∧
      (fragment.pending = true → ∃ id subprogram, operation = .call id subprogram ∧
        (p.resolve ⟨index, id, subprogram⟩).isSome = false) := by
  cases operation with
  | call id subprogram =>
    obtain ⟨_, _, _, _, _, rfl⟩ := call_eq_ok.mp h
    exact ⟨rfl, fun hf => ⟨id, subprogram, rfl, by simpa using hf⟩⟩
  | exit =>
    cases epilogue with
    | none =>
      cases h
      exact ⟨rfl, nofun⟩
    | some start =>
      obtain ⟨code, _, h⟩ := bind_eq_ok.mp h
      cases h
      exact ⟨rfl, nofun⟩
  | tailCall id =>
    obtain ⟨_, _, _, rfl⟩ | ⟨_, _, _, _, _, rfl⟩ := tailCall_eq_ok h <;> exact ⟨rfl, by simp⟩
  | fetch | branch =>
    obtain ⟨code, _, h⟩ := bind_eq_ok.mp h
    cases h
    exact ⟨rfl, nofun⟩
  | jump off =>
    obtain ⟨_, _, _, _, rfl⟩ := lower_jump h
    exact ⟨rfl, nofun⟩
  | _ =>
    cases h
    exact ⟨rfl, nofun⟩

/-- Once an epilogue is known, it stays the epilogue. -/
theorem epilogueAfter_some {steps : List Step} {start : Nat} {known : Nat} {placed : List Placed}
    (h : p.place depth steps start (some known) = .ok placed) :
    epilogueAfter (some known) placed = some known := by
  induction steps generalizing start placed with
  | nil =>
    cases h
    rfl
  | cons step rest ih =>
    obtain ⟨operation, fragment, tail, _, hf, _, ht, rfl⟩ := place_cons.mp h
    have he : fragment.epilogue = false := by
      have hl := lower_epilogue hf
      simpa using hl
    rw [he] at ht
    have hi := ih ht
    simpa [epilogueAfter, he] using hi

/-- The epilogue that is known behind a first part of a program is the start of its first exit. -/
theorem epilogueAfter_none {steps : List Step} {start : Nat} {placed : List Placed}
    (h : p.place depth steps start none = .ok placed) :
    (epilogueAfter none placed = none ∧ ∀ s ∈ steps, ¬s.IsExit) ∨
      ∃ front x back before, steps = front ++ x :: back ∧ (∀ s ∈ front, ¬s.IsExit) ∧ x.IsExit ∧
        p.place depth front start none = .ok before ∧
        epilogueAfter none placed = some (start + placedSize before) := by
  induction steps generalizing start placed with
  | nil =>
    cases h
    exact .inl ⟨rfl, by simp⟩
  | cons step rest ih =>
    obtain ⟨operation, fragment, tail, ho, hf, hm, ht, rfl⟩ := place_cons.mp h
    have hl := lower_epilogue hf
    by_cases he : fragment.epilogue = true
    · rw [if_pos he] at ht
      have hx : step.IsExit := by rw [Step.IsExit, ho, (hl.mp he).1]
      refine .inr ⟨[], step, rest, [], rfl, by simp, hx, rfl, ?_⟩
      have hk := epilogueAfter_some ht
      simpa [epilogueAfter, he, placedSize] using hk
    · rw [if_neg he] at ht
      have hx : ¬step.IsExit := by
        intro hx
        rw [Step.IsExit, ho, Except.ok.injEq] at hx
        exact he (hl.mpr ⟨hx, rfl⟩)
      have hk : epilogueAfter none (⟨step.index, step.slots, start, fragment⟩ :: tail) =
          epilogueAfter none tail := by simp [epilogueAfter, he]
      rw [hk]
      rcases ih ht with ⟨hn, hs⟩ | ⟨front, x, back, before, rfl, hfront, hxe, hb, hk⟩
      · exact .inl ⟨hn, by simpa [hx] using hs⟩
      · refine .inr ⟨step :: front, x, back,
          ⟨step.index, step.slots, start, fragment⟩ :: before, rfl, by simpa [hx] using hfront, hxe,
          place_cons.mpr ⟨_, _, _, ho, hf, hm, by rw [if_neg he]; exact hb, rfl⟩, ?_⟩
        rw [hk]
        simp only [placedSize, List.map_cons, List.sum_cons, Option.some.injEq]
        omega

end Pass

/-- Behind the slots of its first fragment, an offset map goes on as the map of the rest. -/
theorem offsetsFrom_cons {f : Placed} (hs : 1 ≤ f.slots) (start : Nat) (rest : List Placed)
    (m : Nat) :
    (offsetsFrom start (f :: rest))[f.slots + m]? = (offsetsFrom f.stop rest)[m]? := by
  obtain ⟨k, hk⟩ : ∃ k, f.slots = k + 1 := ⟨f.slots - 1, by omega⟩
  simp only [offsetsFrom, List.flatMap_cons, hk]
  rw [show k + 1 + m = (k + m) + 1 by omega, List.getElem?_cons_succ]
  cases m with
  | zero => simp [List.getElem?_append]
  | succ m =>
    rw [List.getElem?_append_right (by rw [List.length_replicate]; omega), List.length_replicate,
      show k + (m + 1) - (k + 1) = m by omega, List.getElem?_cons_succ]

/-- Every slot of a fragment but its first one has the end of the fragment as its offset. -/
theorem offsetsFrom_inside {f : Placed} {j : Nat} (h1 : 1 ≤ j) (h2 : j ≤ f.slots) (start : Nat)
    (rest : List Placed) : (offsetsFrom start (f :: rest))[j]? = some f.stop := by
  obtain ⟨k, rfl⟩ : ∃ k, j = k + 1 := ⟨j - 1, by omega⟩
  simp only [offsetsFrom, List.flatMap_cons, List.getElem?_cons_succ]
  rw [List.getElem?_append_left (by rw [List.length_replicate]; omega), List.getElem?_replicate,
    if_pos (by omega)]

namespace Pass

variable {p : Pass} {depth : UInt32}

/-- Behind the slots of placed steps, an offset map goes on as the map of the rest. -/
theorem place_offsets {steps : List Step} {start : Nat} {epilogue : Option Nat}
    {placed : List Placed} (h : p.place depth steps start epilogue = .ok placed)
    (hs : ∀ s ∈ steps, 1 ≤ s.slots) (rest : List Placed) (m : Nat) :
    (offsetsFrom start (placed ++ rest))[slotCount steps + m]? =
      (offsetsFrom (start + placedSize placed) rest)[m]? := by
  induction steps generalizing start epilogue placed with
  | nil =>
    cases h
    simp [placedSize]
  | cons step steps ih =>
    obtain ⟨operation, fragment, tail, _, _, _, ht, rfl⟩ := place_cons.mp h
    have hstep : 1 ≤ step.slots := hs step (by simp)
    have hi := ih ht (fun s hm => hs s (by simp [hm]))
    rw [slotCount_cons, List.cons_append, Nat.add_assoc]
    rw [offsetsFrom_cons (f := ⟨step.index, step.slots, start, fragment⟩) hstep start _ _]
    dsimp only [Placed.stop]
    rw [hi]
    simp only [placedSize, List.map_cons, List.sum_cons, Nat.add_assoc]

/-- An offset map never goes down. -/
theorem place_sorted {steps : List Step} {start : Nat} {epilogue : Option Nat}
    {placed : List Placed} (h : p.place depth steps start epilogue = .ok placed) :
    (offsetsFrom start placed).Pairwise (· ≤ ·) := by
  induction steps generalizing start epilogue placed with
  | nil =>
    cases h
    simp [offsetsFrom]
  | cons step steps ih =>
    obtain ⟨operation, fragment, tail, _, _, _, ht, rfl⟩ := place_cons.mp h
    have hi := ih ht
    rw [offsetsFrom, List.pairwise_cons] at hi
    rw [offsetsFrom, List.flatMap_cons, List.pairwise_cons, List.pairwise_append,
      List.pairwise_replicate]
    dsimp only [Placed.stop] at hi ⊢
    refine ⟨?_, .inr (Nat.le_refl _), hi.2, ?_⟩
    · intro a ha
      rcases List.mem_append.mp ha with ha | ha
      · rw [List.eq_of_mem_replicate ha]
        omega
      · have hle := hi.1 a ha
        omega
    · intro a ha b hb
      rw [List.eq_of_mem_replicate ha]
      exact hi.1 b hb

/-- An offset map has one entry per slot and one for the end. -/
theorem place_length {steps : List Step} {start : Nat} {epilogue : Option Nat}
    {placed : List Placed} (h : p.place depth steps start epilogue = .ok placed) :
    (offsetsFrom start placed).length = slotCount steps + 1 := by
  induction steps generalizing start epilogue placed with
  | nil =>
    cases h
    rfl
  | cons step steps ih =>
    obtain ⟨operation, fragment, tail, _, _, _, ht, rfl⟩ := place_cons.mp h
    have hi := ih ht
    simp only [offsetsFrom, List.length_cons, List.flatMap_cons, List.length_append,
      List.length_replicate, slotCount_cons] at hi ⊢
    omega

/-- What a successful pass consists of. -/
theorem run_eq_ok {steps : List Step} {out : PassOutput} (h : p.run steps = .ok out) :
    p.offsets.size = p.slots + 1 ∧ ∃ depth placed, p.frame.IsDepth depth ∧
      p.place depth steps (codeSize (p.frame.prologue depth)) none = .ok placed ∧
      out = .ofPlaced (p.frame.prologue depth) placed := by
  unfold run at h
  split at h
  · exact absurd h (defect_ne_ok _ _)
  · rename_i hsize
    split at h
    · exact absurd h (crash_ne_ok _)
    · obtain ⟨depth, hd, h⟩ := bind_eq_ok.mp h
      obtain ⟨placed, hp, h⟩ := bind_eq_ok.mp h
      exact ⟨by simpa using hsize, depth, placed, Frame.roundedDepth_eq_ok.mp hd, hp,
        (pure_eq_ok.mp h).symm⟩

end Pass

/-- The bytes of a list of fragments. -/
def placedBytes (placed : List Placed) : List UInt8 :=
  placed.flatMap fun f => encodeAll f.fragment.code

/-- Fragments encode to as many bytes as they take. -/
@[simp]
theorem length_placedBytes (placed : List Placed) :
    (placedBytes placed).length = placedSize placed := by
  induction placed with
  | nil => rfl
  | cons f rest ih =>
    simp only [placedBytes, placedSize, List.flatMap_cons, List.length_append, List.map_cons,
      List.sum_cons, length_encodeAll] at ih ⊢
    omega

namespace PassOutput

/-- The offset of a slot in the output of a pass. -/
def offset (out : PassOutput) (index : Nat) : Nat := out.offsets.getD index 0

/-- The bytes of the code of a pass from an offset on. -/
def codeFrom (out : PassOutput) (start : Nat) : List UInt8 := out.code.toList.drop start

variable {p : Pass} {program : Program} {out : PassOutput}

/-- The offset map of the output lists the fragments behind the prologue. -/
theorem offset_ofPlaced (prologue : List Instr) (placed : List Placed) (index : Nat) :
    (ofPlaced prologue placed).offset index =
      ((offsetsFrom (codeSize prologue) placed)[index]?).getD 0 := by
  simp [offset, ofPlaced, offsetsFrom, Array.getD_eq_getD_getElem?]

/-- The code of the output is the prologue and the fragments behind it. -/
theorem code_ofPlaced (prologue : List Instr) (placed : List Placed) :
    (ofPlaced prologue placed).code.toList = encodeAll prologue ++ placedBytes placed := rfl

/-- The shape of the offset map of a pass: one entry per slot and one for the end, never going
down, from the end of the prologue to the end of the code. -/
theorem offsets_of_run {steps : List Step} (h : p.run steps = .ok out)
    (hslots : ∀ s ∈ steps, 1 ≤ s.slots) :
    out.offsets.size = slotCount steps + 1 ∧
    (∀ i j, i ≤ j → j ≤ slotCount steps → out.offset i ≤ out.offset j) ∧
    out.offset (slotCount steps) = out.code.size ∧
    ∃ depth rest, p.frame.IsDepth depth ∧ out.offset 0 = codeSize (p.frame.prologue depth) ∧
      out.code.toList = encodeAll (p.frame.prologue depth) ++ rest := by
  obtain ⟨_, depth, placed, hd, hp, rfl⟩ := Pass.run_eq_ok h
  have hlength := Pass.place_length hp
  have hend := Pass.place_offsets hp hslots [] 0
  rw [List.append_nil, Nat.add_zero] at hend
  refine ⟨?_, ?_, ?_, depth, placedBytes placed, hd, ?_, code_ofPlaced _ _⟩
  · rw [← hlength]
    rfl
  · intro i j hij hj
    rw [offset_ofPlaced, offset_ofPlaced, List.getElem?_eq_getElem (by omega),
      List.getElem?_eq_getElem (by omega)]
    rcases Nat.lt_or_eq_of_le hij with hlt | rfl
    · exact List.pairwise_iff_getElem.mp (Pass.place_sorted hp) i j (by omega) (by omega) hlt
    · exact Nat.le_refl _
  · rw [offset_ofPlaced, hend, ← Array.length_toList, code_ofPlaced, List.length_append,
      length_encodeAll, length_placedBytes]
    rfl
  · rw [offset_ofPlaced]
    rfl

/-- How a step of a program stands in the output of a pass: it was lowered with the epilogue that
the steps before it leave, its instructions are in the code at its offset, and its further slots
have the end of its instructions as their offset. -/
structure Holds (out : PassOutput) (p : Pass) (depth : UInt32) (before : List Step) (s : Step)
    (operation : Operation) (epilogue : Option Nat) (fragment : Fragment) : Prop where
  /-- The step means the operation. -/
  operation_eq : s.operation = .ok operation
  /-- The fragment is the operation in native instructions. -/
  lowered : p.lower depth s.index epilogue operation = .ok fragment
  /-- The epilogue is the first exit before the step. -/
  epilogue_eq : (epilogue = none ∧ ∀ x ∈ before, ¬x.IsExit) ∨
    ∃ front x back, before = front ++ x :: back ∧ (∀ y ∈ front, ¬y.IsExit) ∧ x.IsExit ∧
      epilogue = some (out.offset (slotCount front))
  /-- The instructions stand in the code at the offset of the step. -/
  code_eq : ∃ rest, out.codeFrom (out.offset (slotCount before)) = encodeAll fragment.code ++ rest
  /-- The offsets of the step's other slots and of the next step. -/
  stop_eq : ∀ j, 1 ≤ j → j ≤ s.slots →
    out.offset (slotCount before + j) = out.offset (slotCount before) + codeSize fragment.code

/-- Every step of a program stands in the output of a pass over the program, at the place where
its fragment was put. -/
theorem holds_of_place {depth : UInt32} {before after : List Step} {s : Step}
    {placed : List Placed}
    (hp : p.place depth (before ++ s :: after) (codeSize (p.frame.prologue depth)) none =
      .ok placed)
    (hslots : ∀ x ∈ before ++ s :: after, 1 ≤ x.slots) :
    ∃ pa tail operation fragment,
      p.place depth before (codeSize (p.frame.prologue depth)) none = .ok pa ∧
      placed = pa ++
        ⟨s.index, s.slots, (ofPlaced (p.frame.prologue depth) placed).offset (slotCount before),
          fragment⟩ :: tail ∧
      (ofPlaced (p.frame.prologue depth) placed).Holds p depth before s operation
        (epilogueAfter none pa) fragment := by
  obtain ⟨pa, pb, ha, hb, rfl⟩ := Pass.place_append hp
  obtain ⟨operation, fragment, tail, ho, hf, _, ht, rfl⟩ := Pass.place_cons.mp hb
  have hsa : ∀ x ∈ before, 1 ≤ x.slots := fun x hx => hslots x (by simp [hx])
  have hstart : ∀ m, (ofPlaced (p.frame.prologue depth)
      (pa ++ ⟨s.index, s.slots, codeSize (p.frame.prologue depth) + placedSize pa, fragment⟩ :: tail)
        ).offset (slotCount before + m) = _ := fun m => by
    rw [offset_ofPlaced, Pass.place_offsets ha hsa]
  have h0 := hstart 0
  rw [Nat.add_zero] at h0
  refine ⟨pa, tail, operation, fragment, ha, by rw [h0]; rfl, ho, hf, ?_, ?_, ?_⟩
  · rcases Pass.epilogueAfter_none ha with hn | ⟨front, x, back, pf, rfl, hfront, hx, hpf, he⟩
    · exact .inl hn
    · refine .inr ⟨front, x, back, rfl, hfront, hx, ?_⟩
      obtain ⟨pf', rest, hpf', _, rfl⟩ := Pass.place_append ha
      rw [hpf, Except.ok.injEq] at hpf'
      subst hpf'
      have hoff := fun more =>
        Pass.place_offsets hpf (fun y hy => hsa y (by simp [hy])) more 0
      rw [he, offset_ofPlaced, List.append_assoc, ← Nat.add_zero (slotCount front), hoff]
      rfl
  · refine ⟨placedBytes tail, ?_⟩
    rw [h0, codeFrom, code_ofPlaced]
    simp only [placedBytes, List.flatMap_append, List.flatMap_cons, ← List.append_assoc]
    rw [List.append_assoc]
    apply List.drop_left'
    rw [List.length_append, length_encodeAll, ← placedBytes, length_placedBytes]
    rfl
  · intro j h1 h2
    rw [h0, hstart j, offsetsFrom_inside (f := ⟨s.index, s.slots, _, fragment⟩) h1 h2]
    rfl

/-- Every step of a program stands in the output of a pass over the program. -/
theorem holds_of_run {steps before after : List Step} {s : Step} (h : p.run steps = .ok out)
    (hs : steps = before ++ s :: after) (hslots : ∀ x ∈ steps, 1 ≤ x.slots) :
    ∃ depth operation epilogue fragment, p.frame.IsDepth depth ∧
      out.Holds p depth before s operation epilogue fragment := by
  obtain ⟨_, depth, placed, hd, hp, rfl⟩ := Pass.run_eq_ok h
  subst hs
  obtain ⟨pa, _, operation, fragment, _, _, hh⟩ := holds_of_place hp hslots
  exact ⟨depth, operation, _, fragment, hd, hh⟩

/-- A direct tail call of the output belongs to a step of the program and stands in the code of
that step. -/
theorem direct_of_run {steps : List Step} {d : TailCall.DirectSite} (h : p.run steps = .ok out)
    (hslots : ∀ x ∈ steps, 1 ≤ x.slots) (hd : d ∈ out.direct) :
    ∃ before s after depth operation epilogue fragment site, steps = before ++ s :: after ∧
      out.Holds p depth before s operation epilogue fragment ∧ fragment.direct = some site ∧
      d = site.shift (out.offset (slotCount before)) := by
  obtain ⟨_, depth, placed, _, hp, rfl⟩ := Pass.run_eq_ok h
  obtain ⟨f, hf, hfd⟩ := List.mem_filterMap.mp hd
  obtain ⟨before, s, after, pa, pb, rfl, rfl, ha⟩ := Pass.mem_of_place hp hf
  obtain ⟨pa', tail, operation, fragment, ha', heq, hh⟩ := holds_of_place hp hslots
  rw [ha, Except.ok.injEq] at ha'
  subst ha'
  obtain ⟨hfe, _⟩ := List.cons.inj (List.append_cancel_left heq)
  obtain ⟨site, hsite, rfl⟩ := Option.map_eq_some_iff.mp hfd
  refine ⟨before, s, after, depth, operation, _, fragment, site, rfl, hh, ?_, ?_⟩
  · rw [← hsite, hfe]
  · exact congrArg site.shift (congrArg Placed.start hfe)

end PassOutput

end NativeForge
