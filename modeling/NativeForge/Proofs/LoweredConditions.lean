import NativeForge.Proofs.LoweredArithmetic

/-!
# Lowered conditions hold

A conditional jump is lowered to a comparison that sets the flags and a native condition that reads
them. The native condition holds exactly when the condition of the jump does, for signed and
unsigned comparisons of both sizes.
-/

namespace NativeForge

open X64 Virtual

namespace X64.Flags

variable {size : OpSize} (a b : BitVec size.bits)

/-- A difference is zero exactly when its operands are equal. -/
theorem zero_ofSub : (ofSub a b).zero = (a == b) := by
  have h : a - b = 0 ↔ a = b := by
    constructor
    · intro h
      rw [← BitVec.sub_add_cancel a b, h]
      simp
    · rintro rfl
      exact BitVec.sub_self a
  rw [ofSub]
  by_cases heq : a = b
  · rw [beq_iff_eq.mpr heq, beq_iff_eq.mpr (h.mpr heq)]
  · rw [beq_eq_false_iff_ne.mpr heq, beq_eq_false_iff_ne.mpr fun hz => heq (h.mp hz)]

/-- A signed difference turns around at most once, and a turn changes its sign. -/
theorem sign_ne_overflow {m : Nat} {x y : Int} (hm : m = 2 ^ 32 ∨ m = 2 ^ 64)
    (hx : -m ≤ 2 * x ∧ 2 * x < m) (hy : -m ≤ 2 * y ∧ 2 * y < m) :
    (decide ((x - y).bmod m < 0) != decide ((x - y).bmod m ≠ x - y)) = decide (x < y) := by
  have hturn : (x - y).bmod m = x - y ∨
      (x - y).bmod m ≠ x - y ∧ ((x - y).bmod m < 0 ↔ ¬x - y < 0) := by
    rw [Int.bmod_def]
    rcases hm with rfl | rfl <;> split <;> omega
  have hless : x - y < 0 ↔ x < y := by omega
  rcases hturn with heq | ⟨hne, hsign⟩
  · rw [heq, decide_eq_false (not_not_intro rfl), Bool.bne_false, decide_eq_decide]
    exact hless
  · rw [decide_eq_true hne, Bool.bne_true, ← decide_not, decide_eq_decide, hsign, ← hless]
    exact Decidable.not_not

/-- The signed value of an operand is in its range. -/
theorem toInt_range : -((2 ^ size.bits : Nat) : Int) ≤ 2 * a.toInt ∧
    2 * a.toInt < ((2 ^ size.bits : Nat) : Int) := by
  rw [Int.natCast_pow]
  exact ⟨a.le_two_mul_toInt, a.two_mul_toInt_lt⟩

/-- Sign and overflow of a difference differ exactly when the first operand is less, with sign. -/
theorem sign_ne_overflow_ofSub : ((ofSub a b).sign != (ofSub a b).overflow) = a.slt b := by
  simp only [ofSub, BitVec.slt, BitVec.msb_eq_toInt, BitVec.toInt_sub]
  refine sign_ne_overflow ?_ (toInt_range a) (toInt_range b)
  cases size with
  | narrow => exact .inl rfl
  | wide => exact .inr rfl

/-- The flags of a difference from zero are those of a bitwise result. -/
theorem ofSub_zero : ofSub a 0 = ofLogic a := by
  simp [ofSub, ofLogic]

end X64.Flags

section Conditions

variable {size : OpSize} (a b : BitVec size.bits)

/-- Not less is the other way round or equal, without sign. -/
theorem ule_eq_not_ult : b.ule a = !a.ult b := by
  rw [BitVec.ule, BitVec.ult, ← decide_not, decide_eq_decide]
  exact Nat.not_lt.symm

/-- Less or equal, without sign. -/
theorem ule_eq_ult_or : a.ule b = (a.ult b || a == b) := by
  rw [Bool.eq_iff_iff]
  simp only [BitVec.ule, BitVec.ult, Bool.or_eq_true, decide_eq_true_eq, beq_iff_eq,
    ← BitVec.toNat_inj]
  omega

/-- Not less is the other way round or equal, with sign. -/
theorem sle_eq_not_slt : b.sle a = !a.slt b := by
  rw [BitVec.sle, BitVec.slt, ← decide_not, decide_eq_decide]
  exact Int.not_lt.symm

/-- Less or equal, with sign. -/
theorem sle_eq_or_slt : a.sle b = (a == b || a.slt b) := by
  rw [Bool.eq_iff_iff]
  simp only [BitVec.sle, BitVec.slt, Bool.or_eq_true, decide_eq_true_eq, beq_iff_eq,
    ← BitVec.toInt_inj]
  omega

/-- The native condition of a comparison holds for the flags of the difference. -/
theorem holds_ofSub {cond : Condition} (h : cond ≠ .anySet) :
    (Pass.nativeCond cond).holds (.ofSub a b) = cond.holds a b := by
  have hzero := Flags.zero_ofSub a b
  have hless := Flags.sign_ne_overflow_ofSub a b
  have hcarry : (Flags.ofSub a b).carry = a.ult b := rfl
  cases cond with
  | anySet => exact absurd rfl h
  | equal => exact hzero
  | notEqual => rw [Pass.nativeCond, Cond.holds, hzero, Condition.holds, bne]
  | less => exact hcarry
  | greaterEqual => rw [Pass.nativeCond, Cond.holds, hcarry, Condition.holds, ule_eq_not_ult]
  | lessEqual => rw [Pass.nativeCond, Cond.holds, hcarry, hzero, Condition.holds, ule_eq_ult_or]
  | greater =>
    have hnot : b.ult a = !a.ule b := by rw [ule_eq_not_ult, Bool.not_not]
    rw [Pass.nativeCond, Cond.holds, hcarry, hzero, Condition.holds, hnot, ule_eq_ult_or]
  | signedLess => exact hless
  | signedGreaterEqual =>
    rw [Pass.nativeCond, Cond.holds, Condition.holds, sle_eq_not_slt, ← hless, bne, Bool.not_not]
  | signedLessEqual => rw [Pass.nativeCond, Cond.holds, hless, hzero, Condition.holds, sle_eq_or_slt]
  | signedGreater =>
    have hnot : b.slt a = !a.sle b := by rw [sle_eq_not_slt, Bool.not_not]
    rw [Pass.nativeCond, Cond.holds, hless, hzero, Condition.holds, hnot, sle_eq_or_slt]

/-- The comparison of a conditional jump sets the flags so that the native condition holds exactly
when the condition of the jump does. -/
theorem exec_compare {s : State} {regs : Registers} {dst : VReg} {src : Operand}
    (ha : Agrees s regs) (cond : Condition) (size : OpSize) (hd : dst.IsGeneral)
    (hs : src.IsGeneral) :
    ∃ f, (Pass.compare cond size dst src).exec s = some (s.setFlags (some f), .next) ∧
      (Pass.nativeCond cond).holds f =
        cond.holds (low size (regs dst)) (low size (src.value regs)) := by
  rw [← ha.value_eq hd]
  by_cases hany : cond = .anySet
  · -- some common bit is set: the test of both operands is not zero
    subst hany
    cases src with
    | reg r =>
      rw [Operand.value, ← ha.value_eq hs]
      exact ⟨_, rfl, rfl⟩
    | imm v =>
      rw [Operand.value, ← ofInt_eq_low]
      exact ⟨_, rfl, rfl⟩
  · cases src with
    | reg r =>
      rw [Operand.value, ← ha.value_eq hs, ← holds_ofSub _ _ hany, Pass.compare, if_neg hany]
      exact ⟨_, rfl, rfl⟩
    | imm v =>
      rw [Operand.value, ← ofInt_eq_low, ← holds_ofSub _ _ hany, Pass.compare, if_neg hany]
      split
      · -- a test of the register with itself gives the flags of the difference from zero
        rename_i hz
        have hzero : BitVec.ofInt size.bits v.toInt = 0 := by
          rw [hz]
          simp
        rw [hzero, Flags.ofSub_zero]
        refine ⟨_, rfl, ?_⟩
        rw [BitVec.and_self]
      · refine ⟨_, rfl, ?_⟩
        rw [value_shortest]

end Conditions

end NativeForge
