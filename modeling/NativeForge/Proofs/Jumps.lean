import NativeForge.Proofs.Layout

/-!
# Jumps in native instructions

What the three kinds of jumps are lowered to: a comparison for a conditional jump, instructions
that do nothing as filler, and one branch in its shortest form over the distance that the offset
map gives. Only an unconditional jump over nothing may be left out.
-/

namespace NativeForge

open X64 Virtual

/-- The instructions do nothing. -/
def IsFiller (code : List Instr) : Prop := ∀ i ∈ code, ∃ extra, i = .nop extra

/-- No instructions do nothing. -/
theorem isFiller_nil : IsFiller [] := by
  intro i hi
  cases hi

/-- Runs of instructions that do nothing are filler. -/
theorem isFiller_nops (count : Nat) : IsFiller (nops count) := by
  intro i hi
  unfold nops at hi
  rcases List.mem_append.mp hi with hi | hi
  · exact ⟨7, List.eq_of_mem_replicate hi⟩
  · split at hi
    · cases hi
    · exact ⟨_, List.mem_singleton.mp hi⟩

/-- The field that a branch over a distance takes: one byte exactly when the distance fits it. -/
def branchField (distance : Int) : SignedField :=
  if fitsInt8 distance then .byte (Int8.ofInt distance) else .dword (Int32.ofInt distance)

/-- The processor reads the distance back from the field. -/
theorem value_branchField {distance : Int} (h : fitsInt32 distance = true) :
    (branchField distance).value = distance := by
  have hd := fitsInt32_iff.mp h
  unfold branchField
  split
  · rename_i h8
    have hb := fitsInt8_iff.mp h8
    exact Int8.toInt_ofInt_of_le (by omega) (by omega)
  · exact Int32.toInt_ofInt_of_le (by omega) (by omega)

/-- A distance that fits one byte fits four. -/
theorem fitsInt32_of_fitsInt8 {distance : Int} (h : fitsInt8 distance = true) :
    fitsInt32 distance = true := by
  have hb := fitsInt8_iff.mp h
  exact fitsInt32_iff.mpr (by omega)

namespace Pass

variable {p : Pass} {depth : UInt32}

/-- Padding of a jump does nothing. -/
theorem pad_eq_ok {index emitted reserved : Nat} {allowed : List Int} {code : List Instr}
    (h : p.pad index emitted reserved allowed = .ok code) : IsFiller code := by
  unfold pad at h
  split at h
  · dsimp only at h
    split at h
    · cases h
      exact isFiller_nops _
    · exact absurd h (defect_ne_ok _ _)
  · cases h
    exact isFiller_nil

/-- A jump is left out when it may be and goes nowhere; otherwise it is one branch over the
distance, behind filler. -/
theorem jump_eq_ok {index : Nat} {distance : Int} {mayVanish : Bool} {code : List Instr}
    (h : p.jump index distance mayVanish = .ok code) :
    (mayVanish = true ∧ distance = 0 ∧ IsFiller code) ∨
      (fitsInt32 distance = true ∧ ∃ filler, IsFiller filler ∧
        code = filler ++ [.jmp (branchField distance)]) := by
  unfold jump at h
  split at h
  · rename_i hz
    exact .inl ⟨hz.2, hz.1, pad_eq_ok h⟩
  · unfold branchField
    split at h
    · rename_i h8
      obtain ⟨filler, hf, h⟩ := bind_eq_ok.mp h
      obtain rfl := pure_eq_ok.mp h
      exact .inr ⟨fitsInt32_of_fitsInt8 h8, filler, pad_eq_ok hf, by rw [if_pos h8]⟩
    · rename_i h8
      split at h
      · rename_i h32
        cases h
        exact .inr ⟨h32, [], isFiller_nil, by rw [if_neg h8]; rfl⟩
      · exact absurd h (outOfRange_ne_ok _ _ _)

/-- The distance of a jump leads from the end of its slot to a slot of the program or to its
end. -/
theorem jumpDistance_eq_ok {index : Nat} {off : Int16} {distance : Int}
    (h : p.jumpDistance index off = .ok distance) :
    ∃ target : Nat, (target : Int) = index + 1 + off.toInt ∧ target < p.offsets.size ∧
      (p.offset (index + 1) : Int) + distance = p.offset target := by
  unfold jumpDistance at h
  dsimp only at h
  split at h
  · exact absurd h (defect_ne_ok _ _)
  · rename_i hr
    cases h
    exact ⟨((index : Int) + 1 + off.toInt).toNat, by omega, by omega, by omega⟩

/-- A conditional jump is a comparison and one branch over the distance, with filler between. -/
theorem branch_eq_ok {index : Nat} {cond : Condition} {size : OpSize} {dst : VReg} {src : Operand}
    {off : Int16} {code : List Instr} (h : p.branch index cond size dst src off = .ok code) :
    ∃ distance filler, p.jumpDistance index off = .ok distance ∧ fitsInt32 distance = true ∧
      IsFiller filler ∧
      code =
        compare cond size dst src :: filler ++ [.jcc (nativeCond cond) (branchField distance)] := by
  unfold branch at h
  obtain ⟨distance, hd, h⟩ := bind_eq_ok.mp h
  unfold branchField
  split at h
  · rename_i h8
    obtain ⟨filler, hf, h⟩ := bind_eq_ok.mp h
    obtain rfl := pure_eq_ok.mp h
    exact ⟨distance, filler, hd, fitsInt32_of_fitsInt8 h8, pad_eq_ok hf, by rw [if_pos h8]⟩
  · rename_i h8
    split at h
    · rename_i h32
      obtain rfl := pure_eq_ok.mp h
      exact ⟨distance, [], hd, h32, isFiller_nil, by rw [if_neg h8]; rfl⟩
    · exact absurd h (outOfRange_ne_ok _ _ _)

/-- The lowering of a conditional jump. -/
theorem lower_branch {index : Nat} {epilogue : Option Nat} {cond : Condition} {size : OpSize}
    {dst : VReg} {src : Operand} {off : Int16} {fragment : Fragment}
    (h : p.lower depth index epilogue (.branch cond size dst src off) = .ok fragment) :
    ∃ distance filler, p.jumpDistance index off = .ok distance ∧ fitsInt32 distance = true ∧
      IsFiller filler ∧ fragment.code =
        compare cond size dst src :: filler ++ [.jcc (nativeCond cond) (branchField distance)] := by
  obtain ⟨code, hc, h⟩ := bind_eq_ok.mp h
  obtain rfl := pure_eq_ok.mp h
  exact branch_eq_ok hc

/-- The lowering of an exit: the epilogue, or a branch to it behind filler. -/
theorem lower_exit {index : Nat} {epilogue : Option Nat} {fragment : Fragment}
    (h : p.lower depth index epilogue .exit = .ok fragment) :
    (epilogue = none ∧ fragment.code = p.frame.epilogue) ∨
      ∃ start distance filler, epilogue = some start ∧
        (p.offset (index + 1) : Int) + distance = start ∧ fitsInt32 distance = true ∧
        IsFiller filler ∧ fragment.code = filler ++ [.jmp (branchField distance)] := by
  rw [lower, exit.eq_def] at h
  split at h
  · cases h
    exact .inl ⟨rfl, rfl⟩
  · rename_i start
    obtain ⟨code, hc, h⟩ := bind_eq_ok.mp h
    obtain rfl := pure_eq_ok.mp h
    rcases jump_eq_ok hc with ⟨hv, _⟩ | ⟨h32, filler, hf, rfl⟩
    · cases hv
    · exact .inr ⟨start, _, filler, rfl, by omega, h32, hf, rfl⟩

end Pass

end NativeForge
