import NativeForge.Proofs.Causes
import NativeForge.Proofs.Jumps

/-!
# Forms of branches

The length of a jump, of a conditional jump and of an exit behind the first one depends on the
distance that the offset map gives it; every other operation has one length in all passes over a
program. A branch has a short and a long form, and a jump over nothing may be left out. Without
padding a branch takes the form of its distance; with padding a branch whose distance is short
keeps the length that it had before. `BranchForm` holds the lengths of the forms, and
`BranchForm.Sized` says what a pass makes of them, once for the three kinds of branches.
-/

namespace NativeForge

open X64 Virtual

namespace X64

/-- A short jump has two bytes. -/
@[simp]
theorem size_jmp_byte (rel : Int8) : (Instr.jmp (.byte rel)).size = 2 := rfl

/-- A long jump has five bytes. -/
@[simp]
theorem size_jmp_dword (rel : Int32) : (Instr.jmp (.dword rel)).size = 5 := by
  simp [Instr.size, Instr.encode, Bytes.ofInt32, Bytes.ofUInt32]

/-- A short conditional jump has two bytes. -/
@[simp]
theorem size_jcc_byte (cond : Cond) (rel : Int8) : (Instr.jcc cond (.byte rel)).size = 2 := rfl

/-- A long conditional jump has six bytes. -/
@[simp]
theorem size_jcc_dword (cond : Cond) (rel : Int32) : (Instr.jcc cond (.dword rel)).size = 6 := by
  simp [Instr.size, Instr.encode, Bytes.ofInt32, Bytes.ofUInt32]

/-- A call has five bytes. -/
@[simp]
theorem size_call (rel : Int32) : (Instr.call rel).size = 5 := by
  simp [Instr.size, Instr.encode, Bytes.ofInt32, Bytes.ofUInt32]

/-- An instruction that does nothing has the bytes it says. -/
@[simp]
theorem size_nop (extra : Fin 8) : (Instr.nop extra).size = extra.val + 1 := by
  revert extra
  decide

/-- Filler of a number of bytes has that many bytes. -/
@[simp]
theorem codeSize_nops (count : Nat) : codeSize (nops count) = count := by
  have hblocks : ∀ n, codeSize (List.replicate n (Instr.nop 7)) = 8 * n := by
    intro n
    induction n with
    | zero => rfl
    | succ n ih =>
      rw [List.replicate_succ, codeSize_cons, ih, size_nop]
      show 7 + 1 + 8 * n = 8 * (n + 1)
      omega
  unfold nops
  rw [codeSize_append, hblocks]
  split
  · rw [codeSize_nil]
    omega
  · rw [codeSize_cons, codeSize_nil, size_nop]
    show 8 * (count / 8) + (count % 8 - 1 + 1 + 0) = count
    omega

end X64

/-- The lengths of the two forms of a branch, and whether it may be left out. -/
structure BranchForm where
  /-- Length with a displacement of one byte. -/
  narrow : Nat
  /-- Length with a displacement of four bytes. -/
  wide : Nat
  /-- A branch over nothing is left out. -/
  mayVanish : Bool
deriving DecidableEq, Repr

namespace BranchForm

/-- The form of a jump. -/
def ofJump (mayVanish : Bool) : BranchForm := ⟨2, 5, mayVanish⟩

/-- The form of a conditional jump behind its comparison. -/
def ofBranch (test : Instr) : BranchForm := ⟨test.size + 2, test.size + 6, false⟩

/-- The length that a branch over a distance takes without padding. -/
def length (form : BranchForm) (distance : Int) : Nat :=
  if distance = 0 ∧ form.mayVanish = true then 0
  else if fitsInt8 distance = true then form.narrow
  else form.wide

/-- A branch over a distance can be filled up to a length. -/
def Allows (form : BranchForm) (distance : Int) (span : Nat) : Prop :=
  span = form.length distance ∨ span = form.narrow ∨ span = form.wide

/-- The length of a branch in a pass with or without padding, if the branch took `span` bytes in
the pass before. -/
structure Sized (form : BranchForm) (padding : Bool) (span : Nat) (distance : Int) (size : Nat) :
    Prop where
  /-- Without padding a branch takes the length of its distance. -/
  unpadded : padding = false → size = form.length distance
  /-- With padding a branch over a long distance takes the long form. -/
  far : padding = true → form.length distance = form.wide → size = form.wide
  /-- With padding a branch over a short distance keeps its length. -/
  near : padding = true → form.length distance ≠ form.wide → size = span ∧
    form.Allows distance span

/-- A branch is left out over nothing only. -/
theorem length_of_vanish (form : BranchForm) {distance : Int}
    (h : distance = 0 ∧ form.mayVanish = true) : form.length distance = 0 :=
  if_pos h

/-- A branch over a short distance takes the short form. -/
theorem length_of_short (form : BranchForm) {distance : Int}
    (hz : ¬(distance = 0 ∧ form.mayVanish = true)) (h8 : fitsInt8 distance = true) :
    form.length distance = form.narrow := by
  rw [length, if_neg hz, if_pos h8]

/-- A branch over a long distance takes the long form. -/
theorem length_of_long (form : BranchForm) {distance : Int} (h8 : ¬fitsInt8 distance = true) :
    form.length distance = form.wide := by
  have hz : distance ≠ 0 := by
    rintro rfl
    exact h8 rfl
  rw [length, if_neg (by simp [hz]), if_neg h8]

/-- A branch that is not filled up has the length of its distance. -/
theorem Sized.of_unpadded {form : BranchForm} {padding : Bool} {span size : Nat} {distance : Int}
    (hp : padding = false) (hsize : size = form.length distance) :
    form.Sized padding span distance size :=
  ⟨fun _ => hsize, fun h => by simp [hp] at h, fun h => by simp [hp] at h⟩

/-- A branch over a short distance that is filled up has its old length. -/
theorem Sized.of_near {form : BranchForm} {padding : Bool} {span size : Nat} {distance : Int}
    (hp : padding = true) (hne : form.length distance ≠ form.wide) (hsize : size = span)
    (hallows : form.Allows distance span) : form.Sized padding span distance size :=
  ⟨fun h => by simp [hp] at h, fun _ h => absurd h hne, fun _ _ => ⟨hsize, hallows⟩⟩

/-- A branch over a long distance has the long form, filled up or not. -/
theorem Sized.of_far {form : BranchForm} {padding : Bool} {span size : Nat} {distance : Int}
    (hw : form.length distance = form.wide) (hsize : size = form.wide) :
    form.Sized padding span distance size :=
  ⟨fun _ => hsize.trans hw.symm, fun _ _ => hsize, fun _ hne => absurd hw hne⟩

/-- The form of a branch that a pass gave a length has this length. -/
theorem Sized.allows {form : BranchForm} {padding : Bool} {span size : Nat} {distance : Int}
    (h : form.Sized padding span distance size) : form.Allows distance size := by
  cases hp : padding with
  | false => exact .inl (h.unpadded hp)
  | true =>
    by_cases hw : form.length distance = form.wide
    · exact .inr (.inr (h.far hp hw))
    · obtain ⟨rfl, ha⟩ := h.near hp hw
      exact ha

end BranchForm

namespace Pass

variable {p : Pass} {depth : UInt32} {index : Nat}

/-- The length that a slot had in the pass before. -/
def span (p : Pass) (index : Nat) : Nat := p.offset (index + 1) - p.offset index

/-- The form of an operation whose length depends on a distance: of jumps, of conditional jumps, and
of exits once an epilogue is known. -/
def form? (known : Bool) : Operation → Option BranchForm
  | .jump _ => some (.ofJump true)
  | .branch cond size dst src _ => some (.ofBranch (compare cond size dst src))
  | .exit => if known then some (.ofJump false) else none
  | _ => none

/-- The distance that the branch of an operation goes over. -/
def reach (p : Pass) (index : Nat) (epilogue : Option Nat) : Operation → Result Error Int
  | .jump off => if off = -1 then .ok (-2) else p.jumpDistance index off
  | .branch _ _ _ _ off => p.jumpDistance index off
  | .exit => .ok ((epilogue.getD 0 : Int) - p.offset (index + 1))
  | _ => .ok 0

/-- A jump goes over its distance, unless it is the jump to itself. -/
theorem reach_jump (p : Pass) (index : Nat) (epilogue : Option Nat) (off : Int16) :
    p.reach index epilogue (.jump off) = if off = -1 then .ok (-2) else p.jumpDistance index off :=
  rfl

/-- An exit is a branch behind another one. -/
theorem form?_exit (known : Bool) :
    form? known .exit = if known then some (.ofJump false) else none :=
  rfl

section Padding

variable {emitted reserved : Nat} {allowed : List Int}

/-- Padding in terms of the old length of a slot. -/
theorem pad_eq_span (hmono : p.offset index ≤ p.offset (index + 1)) :
    p.pad index emitted reserved allowed =
      if p.padding then
        if (p.span index : Int) - emitted - reserved ∈ allowed then
          .ok (nops ((p.span index : Int) - emitted - reserved).toNat)
        else defect (.unexpectedPadding ((p.span index : Int) - emitted - reserved) index)
      else .ok [] := by
  have hspan : (p.span index : Int) = p.offset (index + 1) - p.offset index := by
    unfold span
    omega
  rw [hspan]
  rfl

/-- Padding that succeeds adds nothing, or fills a slot up to its old length. -/
theorem codeSize_pad {code : List Instr} (hmono : p.offset index ≤ p.offset (index + 1))
    (h : p.pad index emitted reserved allowed = .ok code) :
    (p.padding = false ∧ codeSize code = 0) ∨
      (p.padding = true ∧ (p.span index : Int) - emitted - reserved ∈ allowed ∧
        codeSize code = ((p.span index : Int) - emitted - reserved).toNat) := by
  rw [pad_eq_span hmono] at h
  split at h
  · rename_i hp
    split at h
    · rename_i hmem
      cases h
      exact .inr ⟨hp, hmem, codeSize_nops _⟩
    · exact absurd h (defect_ne_ok _ _)
  · rename_i hp
    cases h
    exact .inl ⟨by simpa using hp, rfl⟩

/-- Padding that fails found an old length that it could not fill up to. -/
theorem pad_eq_error {f : Failure Error} (hmono : p.offset index ≤ p.offset (index + 1))
    (h : p.pad index emitted reserved allowed = .error f) :
    p.padding = true ∧ (p.span index : Int) - emitted - reserved ∉ allowed := by
  rw [pad_eq_span hmono] at h
  split at h
  · rename_i hp
    split at h
    · cases h
    · rename_i hmem
      exact ⟨hp, hmem⟩
  · cases h

end Padding

/-- The length of a jump. -/
theorem sized_jump {distance : Int} {mayVanish : Bool} {code : List Instr}
    (hmono : p.offset index ≤ p.offset (index + 1))
    (h : p.jump index distance mayVanish = .ok code) :
    (BranchForm.ofJump mayVanish).Sized p.padding (p.span index) distance (codeSize code) := by
  unfold jump at h
  by_cases hz : distance = 0 ∧ mayVanish = true
  · have hlength := BranchForm.length_of_vanish (.ofJump mayVanish) hz
    rw [if_pos hz] at h
    rcases codeSize_pad hmono h with ⟨hp, hc⟩ | ⟨hp, hmem, hc⟩
    · exact .of_unpadded hp (by rw [hc, hlength])
    · simp only [List.mem_cons, List.not_mem_nil, or_false] at hmem
      refine .of_near hp (by rw [hlength]; nofun) (by omega) ?_
      rw [BranchForm.Allows, hlength]
      show p.span index = 0 ∨ p.span index = 2 ∨ p.span index = 5
      omega
  · rw [if_neg hz] at h
    by_cases h8 : fitsInt8 distance = true
    · have hlength := BranchForm.length_of_short (.ofJump mayVanish) hz h8
      rw [if_pos h8] at h
      obtain ⟨filler, hf, h⟩ := bind_eq_ok.mp h
      obtain rfl := pure_eq_ok.mp h
      rw [codeSize_append, codeSize_cons, codeSize_nil, size_jmp_byte]
      rcases codeSize_pad hmono hf with ⟨hp, hc⟩ | ⟨hp, hmem, hc⟩
      · exact .of_unpadded hp (by rw [hc, hlength]; rfl)
      · simp only [List.mem_cons, List.not_mem_nil, or_false] at hmem
        refine .of_near hp (by rw [hlength]; nofun) (by omega) (.inr ?_)
        show p.span index = 2 ∨ p.span index = 5
        omega
    · rw [if_neg h8] at h
      split at h
      · cases h
        exact .of_far (BranchForm.length_of_long _ h8) (by simp [BranchForm.ofJump])
      · exact absurd h (outOfRange_ne_ok _ _ _)

/-- The length of a conditional jump. -/
theorem sized_branch {cond : Condition} {size : OpSize} {dst : VReg} {src : Operand} {off : Int16}
    {code : List Instr} (hmono : p.offset index ≤ p.offset (index + 1))
    (h : p.branch index cond size dst src off = .ok code) :
    ∃ distance, p.jumpDistance index off = .ok distance ∧
      (BranchForm.ofBranch (compare cond size dst src)).Sized p.padding (p.span index) distance
        (codeSize code) := by
  unfold branch at h
  obtain ⟨distance, hd, h⟩ := bind_eq_ok.mp h
  refine ⟨distance, hd, ?_⟩
  by_cases h8 : fitsInt8 distance = true
  · have hlength := BranchForm.length_of_short (.ofBranch (compare cond size dst src))
      (by simp [BranchForm.ofBranch]) h8
    rw [if_pos h8] at h
    obtain ⟨filler, hf, h⟩ := bind_eq_ok.mp h
    obtain rfl := pure_eq_ok.mp h
    rw [codeSize_append, codeSize_cons, codeSize_cons, codeSize_nil, size_jcc_byte]
    rcases codeSize_pad hmono hf with ⟨hp, hc⟩ | ⟨hp, hmem, hc⟩
    · exact .of_unpadded hp (by rw [hc, hlength]; rfl)
    · simp only [List.mem_cons, List.not_mem_nil, or_false] at hmem
      refine .of_near hp (by rw [hlength]; simp [BranchForm.ofBranch]) (by omega) (.inr ?_)
      simp only [BranchForm.ofBranch]
      omega
  · rw [if_neg h8] at h
    split at h
    · obtain rfl := pure_eq_ok.mp h
      exact .of_far (BranchForm.length_of_long _ h8) (by simp [BranchForm.ofBranch])
    · exact absurd h (outOfRange_ne_ok _ _ _)

/-- The length of every operation that is a branch. -/
theorem sized_lower {epilogue : Option Nat} {operation : Operation} {form : BranchForm}
    {fragment : Fragment} (hmono : p.offset index ≤ p.offset (index + 1))
    (hform : form? epilogue.isSome operation = some form)
    (h : p.lower depth index epilogue operation = .ok fragment) :
    ∃ distance, p.reach index epilogue operation = .ok distance ∧
      form.Sized p.padding (p.span index) distance (codeSize fragment.code) := by
  cases operation with
  | jump off =>
    cases hform
    obtain ⟨distance, code, hd, hj, rfl⟩ := lower_jump h
    refine ⟨distance, ?_, sized_jump hmono hj⟩
    rcases hd with ⟨ho, rfl⟩ | ⟨ho, hd⟩
    · exact if_pos ho
    · exact (if_neg ho).trans hd
  | branch cond size dst src off =>
    cases hform
    obtain ⟨code, hc, h⟩ := bind_eq_ok.mp h
    obtain rfl := pure_eq_ok.mp h
    exact sized_branch hmono hc
  | exit =>
    cases epilogue with
    | none => cases hform
    | some start =>
      cases hform
      obtain ⟨code, hc, h⟩ := bind_eq_ok.mp h
      obtain rfl := pure_eq_ok.mp h
      exact ⟨_, rfl, sized_jump hmono hc⟩
  | _ => cases hform

/-- The failure reports padding that fits no form of a branch. -/
def IsPaddingFailure (f : Failure Error) : Prop :=
  ∃ count index, f = .reported (.internal (.unexpectedPadding count index))

/-- A failure of other stages is none of padding. -/
theorem not_isPaddingFailure {stages : List Stage} {f : Failure Error} (h : f.From stages)
    (hb : Stage.branch ∉ stages) : ¬IsPaddingFailure f := by
  rintro ⟨count, index, rfl⟩
  exact hb h

/-- A jump that cannot be filled up has a short distance and an old length of none of its forms. -/
theorem not_allows_jump {distance : Int} {mayVanish : Bool} {f : Failure Error}
    (hmono : p.offset index ≤ p.offset (index + 1))
    (h : p.jump index distance mayVanish = .error f) (hf : IsPaddingFailure f) :
    p.padding = true ∧
      (BranchForm.ofJump mayVanish).length distance ≠ (BranchForm.ofJump mayVanish).wide ∧
      ¬(BranchForm.ofJump mayVanish).Allows distance (p.span index) := by
  unfold jump at h
  by_cases hz : distance = 0 ∧ mayVanish = true
  · have hlength := BranchForm.length_of_vanish (.ofJump mayVanish) hz
    rw [if_pos hz] at h
    obtain ⟨hp, hmem⟩ := pad_eq_error hmono h
    refine ⟨hp, by rw [hlength]; nofun, ?_⟩
    rw [BranchForm.Allows, hlength]
    simp only [List.mem_cons, List.not_mem_nil, or_false] at hmem
    show ¬(p.span index = 0 ∨ p.span index = 2 ∨ p.span index = 5)
    omega
  · rw [if_neg hz] at h
    by_cases h8 : fitsInt8 distance = true
    · have hlength := BranchForm.length_of_short (.ofJump mayVanish) hz h8
      rw [if_pos h8] at h
      rcases bind_eq_error.mp h with h | ⟨_, _, h⟩
      · obtain ⟨hp, hmem⟩ := pad_eq_error hmono h
        refine ⟨hp, by rw [hlength]; nofun, ?_⟩
        rw [BranchForm.Allows, hlength]
        simp only [List.mem_cons, List.not_mem_nil, or_false] at hmem
        show ¬(p.span index = 2 ∨ p.span index = 2 ∨ p.span index = 5)
        omega
      · cases h
    · rw [if_neg h8] at h
      split at h
      · cases h
      · obtain ⟨count, index, rfl⟩ := hf
        cases h

/-- A conditional jump that cannot be filled up has a short distance and an old length of none of
its forms. -/
theorem not_allows_branch {cond : Condition} {size : OpSize} {dst : VReg} {src : Operand}
    {off : Int16} {f : Failure Error} (hmono : p.offset index ≤ p.offset (index + 1))
    (h : p.branch index cond size dst src off = .error f) (hf : IsPaddingFailure f) :
    ∃ distance, p.jumpDistance index off = .ok distance ∧ p.padding = true ∧
      (BranchForm.ofBranch (compare cond size dst src)).length distance ≠
        (BranchForm.ofBranch (compare cond size dst src)).wide ∧
      ¬(BranchForm.ofBranch (compare cond size dst src)).Allows distance (p.span index) := by
  unfold branch at h
  rcases bind_eq_error.mp h with h | ⟨distance, hd, h⟩
  · obtain ⟨count, index, rfl⟩ := hf
    unfold jumpDistance at h
    dsimp only at h
    split at h <;> cases h
  · refine ⟨distance, hd, ?_⟩
    by_cases h8 : fitsInt8 distance = true
    · have hlength := BranchForm.length_of_short (.ofBranch (compare cond size dst src))
        (by simp [BranchForm.ofBranch]) h8
      rw [if_pos h8] at h
      rcases bind_eq_error.mp h with h | ⟨_, _, h⟩
      · obtain ⟨hp, hmem⟩ := pad_eq_error hmono h
        refine ⟨hp, by rw [hlength]; simp [BranchForm.ofBranch], ?_⟩
        rw [BranchForm.Allows, hlength]
        simp only [List.mem_cons, List.not_mem_nil, or_false] at hmem
        simp only [BranchForm.ofBranch]
        omega
      · cases h
    · rw [if_neg h8] at h
      obtain ⟨count, index, rfl⟩ := hf
      split at h <;> cases h

/-- Only a branch can fail with padding, over a short distance and with an old length of none of its
forms. -/
theorem not_allows_lower {epilogue : Option Nat} {operation : Operation} {f : Failure Error}
    (hmono : p.offset index ≤ p.offset (index + 1))
    (h : p.lower depth index epilogue operation = .error f) (hf : IsPaddingFailure f) :
    ∃ form distance, form? epilogue.isSome operation = some form ∧
      p.reach index epilogue operation = .ok distance ∧ p.padding = true ∧
      form.length distance ≠ form.wide ∧ ¬form.Allows distance (p.span index) := by
  cases operation with
  | jump off =>
    rw [lower] at h
    split at h
    · rename_i ho
      rcases bind_eq_error.mp h with h | ⟨distance, hd, h⟩
      · cases h
      · cases hd
        rcases bind_eq_error.mp h with h | ⟨_, _, h⟩
        · exact ⟨_, -2, rfl, if_pos ho, not_allows_jump hmono h hf⟩
        · cases h
    · rename_i ho
      rcases bind_eq_error.mp h with h | ⟨distance, hd, h⟩
      · obtain ⟨count, index, rfl⟩ := hf
        unfold jumpDistance at h
        dsimp only at h
        split at h <;> cases h
      · rcases bind_eq_error.mp h with h | ⟨_, _, h⟩
        · exact ⟨_, distance, rfl, (if_neg ho).trans hd, not_allows_jump hmono h hf⟩
        · cases h
  | branch cond size dst src off =>
    rcases bind_eq_error.mp h with h | ⟨_, _, h⟩
    · obtain ⟨distance, hd, hrest⟩ := not_allows_branch hmono h hf
      exact ⟨_, distance, rfl, hd, hrest⟩
    · cases h
  | exit =>
    cases epilogue with
    | none => cases h
    | some start =>
      rcases bind_eq_error.mp h with h | ⟨_, _, h⟩
      · exact ⟨_, _, rfl, rfl, not_allows_jump hmono h hf⟩
      · cases h
  | fetch op size base src off =>
    rcases bind_eq_error.mp h with h | ⟨_, _, h⟩
    · obtain ⟨count, index, rfl⟩ := hf
      unfold Lowering.fetch at h
      dsimp only at h
      split at h <;> cases h
    · cases h
  | call id subprogram =>
    exact absurd hf (not_isPaddingFailure (p.call_failsOnly _ _ _ _ f h) (by simp))
  | tailCall id =>
    exact absurd hf (not_isPaddingFailure (p.tailCall_failsOnly _ _ f h) (by simp))
  | _ => cases h

end Pass

end NativeForge
