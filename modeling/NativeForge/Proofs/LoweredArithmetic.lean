import NativeForge.Pass
import NativeForge.Proofs.Execution
import NativeForge.Proofs.Meaning

/-!
# Lowered arithmetic computes

The native instructions of every arithmetic operation put the result of the operation into the
register of its destination. They use the scratch register and at most sixteen bytes below the
stack pointer, and leave every other register and all other memory as they were.
-/

namespace NativeForge

open X64 Virtual

namespace Virtual

/-- The register is one of the ten general ones. -/
def VReg.IsGeneral (r : VReg) : Prop := r ≠ .fp ∧ r ≠ .ax ∧ r ≠ .aux

/-- The operand is an immediate or a general register. -/
def Operand.IsGeneral : Operand → Prop
  | .reg r => r.IsGeneral
  | .imm _ => True

/-- General registers live outside the stack pointer, the frame pointer and the scratch register. -/
theorem VReg.IsGeneral.native_ne {r : VReg} (h : r.IsGeneral) :
    r.native ≠ .rsp ∧ r.native ≠ .rbp ∧ r.native ≠ .r11 := by
  obtain ⟨h1, h2, h3⟩ := h
  cases r <;> simp_all [VReg.native]

/-- Virtual registers live in different native registers. -/
theorem VReg.native_inj {r x : VReg} : r.native = x.native ↔ r = x := by
  constructor
  · cases r <;> cases x <;> simp [VReg.native]
  · rintro rfl
    rfl

end Virtual

/-- The native registers hold the virtual ones. -/
def Agrees (s : State) (regs : Registers) : Prop := ∀ r : VReg, r.IsGeneral → s.regs r.native = regs r

/-- Memory is kept apart from so many bytes below the stack pointer. -/
structure KeepsMemory (s t : State) (count : Nat) : Prop where
  /-- The other memory is kept. -/
  byte_eq : ∀ a, count ≤ below (s.regs .rsp) a → t.mem.byte a = s.mem.byte a
  /-- The same memory may be accessed. -/
  mapped_eq : t.mem.mapped = s.mem.mapped

/-- Memory that did not change is kept. -/
theorem KeepsMemory.of_eq {s t : State} (h : t.mem = s.mem) (count : Nat) : KeepsMemory s t count :=
  ⟨fun a _ => by rw [h], by rw [h]⟩

/-- Memory that is kept apart from some bytes is kept apart from more bytes. -/
theorem KeepsMemory.mono {s t : State} {count count' : Nat} (h : KeepsMemory s t count)
    (hle : count ≤ count') : KeepsMemory s t count' :=
  ⟨fun a ha => h.byte_eq a (by omega), h.mapped_eq⟩

/-- One register is set; the scratch register and sixteen bytes below the stack pointer may change,
and nothing else. -/
structure Sets (s t : State) (dst : Reg) (v : BitVec 64) : Prop where
  /-- The register is set. -/
  dst_eq : t.regs dst = v
  /-- The other registers are kept. -/
  regs_eq : ∀ r, r ≠ dst → r ≠ .r11 → t.regs r = s.regs r
  /-- Memory is kept. -/
  memory : KeepsMemory s t 16

/-- Code that keeps memory sets a register if it keeps the others. -/
theorem Sets.of_mem_eq {s t : State} {dst : Reg} {v : BitVec 64} (hd : t.regs dst = v)
    (hr : ∀ r, r ≠ dst → r ≠ .r11 → t.regs r = s.regs r) (hm : t.mem = s.mem) : Sets s t dst v :=
  ⟨hd, hr, .of_eq hm 16⟩

/-- A register that is put and flags that are set are all that changed. -/
theorem Sets.put (s : State) (size : OpSize) (dst : Reg) (v : BitVec size.bits) :
    Sets s (s.put size dst v) dst (v.setWidth 64) :=
  .of_mem_eq (by simp) (fun r hr _ => by simp [hr]) rfl

/-- A register is saved around code that uses at most eight bytes of the stack: what the code leaves
alone is left alone, and so is the saved register. -/
theorem exec_saved {s t : State} {body : List Instr} {count : Nat} (r : Reg) (hr : r ≠ .rsp)
    (hroom : s.Room 8) (h : execAll body (s.pushed (s.regs r)) = some t)
    (hsp : t.regs .rsp = (s.pushed (s.regs r)).regs .rsp)
    (hk : KeepsMemory (s.pushed (s.regs r)) t count) (hc : count ≤ 8) :
    ∃ u, execAll (.push r :: body ++ [.pop r]) s = some u ∧
      (∀ x, (x ≠ r → t.regs x = (s.pushed (s.regs r)).regs x) → u.regs x = s.regs x) ∧
      (∀ x, x ≠ r → x ≠ .rsp → u.regs x = t.regs x) ∧ KeepsMemory s u (count + 8) := by
  have hpush : (Instr.push r).exec s = some (s.pushed (s.regs r), .next) := by
    rw [Instr.exec, State.push_eq hroom]
    rfl
  have hmem : (s.pushed (s.regs r)).mem = s.mem.writeWord (s.regs .rsp - 8) (s.regs r) := rfl
  have hpushed : (s.pushed (s.regs r)).regs .rsp = s.regs .rsp - 8 := by simp [State.pushed]
  obtain ⟨hbyte, hmapped⟩ := hk
  rw [hmem, Memory.mapped_writeWord] at hmapped
  rw [hmem, hpushed] at hbyte
  rw [hpushed] at hsp
  have hpop : (Instr.pop r).exec t = some (t.popped r, .next) := by
    rw [Instr.exec, State.pop_eq fun x hx => ?_]
    · rfl
    · rw [hmapped]
      rw [hsp] at hx
      exact hroom x (below_lt_eight.mpr hx)
  -- the saved word lies above the bytes that the code between may use
  have hword : t.mem.readWord (s.regs .rsp - 8) = s.regs r := by
    rw [← Memory.readWord_writeWord_self (m := s.mem) (a := s.regs .rsp - 8) (v := s.regs r)]
    apply Memory.readWord_congr
    intro x hx
    have hx8 := below_lt_eight.mpr hx
    exact hbyte x (by rw [below_sub_eight, if_neg (by omega)]; omega)
  refine ⟨t.popped r, ?_, fun x hx => ?_, fun x h1 h2 => ?_, fun a ha => ?_, hmapped⟩
  · rw [List.cons_append, execAll_next hpush, execAll_append, h, Option.bind_some,
      execAll_next hpop, execAll]
  · by_cases h1 : x = r
    · rw [State.popped, hsp, hword, State.regs_setReg, if_pos h1, h1]
    · by_cases h2 : x = .rsp
      · rw [h2, State.rsp_popped t hr, hsp]
        exact BitVec.sub_add_cancel _ _
      · simp [State.popped, h1, h2, hx, State.pushed]
  · simp [State.popped, h1, h2]
  · have hout : ¬(a - (s.regs .rsp - 8)).toNat < 8 := fun h => by
      have := below_lt_eight.mpr h
      omega
    change t.mem.byte a = _
    rw [hbyte a (by rw [below_sub_eight, if_pos (by omega)]; omega),
      Memory.byte_writeWord (by omega)]

/-- An immediate cut to the size of an operand. -/
theorem ofInt_eq_low (size : OpSize) (v : Int) :
    BitVec.ofInt size.bits v = low size (BitVec.ofInt 64 v) := by
  cases size with
  | wide => rw [low_wide]
  | narrow =>
    change BitVec.ofInt 32 v = (BitVec.ofInt 64 v).setWidth 32
    apply BitVec.eq_of_toNat_eq
    simp only [BitVec.toNat_setWidth, BitVec.toNat_ofInt]
    omega

/-- A number that fits one byte is kept when it is cut to one byte. -/
theorem toInt_toInt8 {v : Int32} (h : -128 ≤ v.toInt ∧ v.toInt ≤ 127) : v.toInt8.toInt = v.toInt := by
  rw [Int32.toInt_toInt8]
  exact Int.bmod_eq_of_le (by omega) (by omega)

/-- The shortest field holds the number. -/
theorem value_shortest (v : Int32) : (SignedField.shortest v).value = v.toInt := by
  unfold SignedField.shortest
  split
  · rename_i h
    have hb := fitsInt8_iff.mp h
    exact toInt_toInt8 hb
  · rfl

/-- An operand of a state is the low part of its register. -/
theorem State.value_eq_low (s : State) (size : OpSize) (r : Reg) :
    s.value size r = low size (s.regs r) := rfl

section Single

variable {s : State} {regs : Registers} {dst src : VReg} {size : OpSize}

/-- The value of an operand is the value of its register. -/
theorem Agrees.value_eq (h : Agrees s regs) (hr : src.IsGeneral) :
    s.value size src.native = low size (regs src) := by
  rw [State.value, h src hr]
  rfl

/-- Arithmetic on a register and an immediate takes the immediate, whatever its form. -/
theorem exec_aluWithImm (op : AluOp) (r : Reg) (v : Int32) :
    (aluWithImm op size r v).exec s = (s.alu op size r (BitVec.ofInt _ v.toInt)).next := by
  unfold aluWithImm
  split
  · rename_i h
    rw [Instr.exec, SignedField.value, toInt_toInt8 (fitsInt8_iff.mp h)]
  · split
    · rename_i h
      rw [h]
      rfl
    · rfl

/-- Lowered arithmetic computes. -/
theorem sets_alu (ha : Agrees s regs) {op : AluOp} {src : Operand} (hd : dst.IsGeneral)
    (hs : src.IsGeneral) :
    ∃ t, execAll (Lowering.alu op size dst src) s = some t ∧ Sets s t dst.native
      ((op.apply (low size (regs dst)) (low size (src.value regs))).setWidth 64) := by
  have hexec : execAll (Lowering.alu op size dst src) s =
      some (s.alu op size dst.native (low size (src.value regs))) := by
    cases src with
    | reg r =>
      rw [Operand.value, ← ha.value_eq hs]
      rfl
    | imm v =>
      rw [Lowering.alu, execAll, exec_aluWithImm, ofInt_eq_low]
      rfl
  refine ⟨_, hexec, ?_⟩
  rw [← ha.value_eq hd]
  exact Sets.of_mem_eq (by simp [State.alu]) (fun r hr _ => by simp [State.alu, hr]) rfl

/-- A non-negative immediate is the same word with and without its sign. -/
theorem setWidth_ofInt_of_nonneg {v : Int32} (h : 0 ≤ v.toInt) :
    (BitVec.ofInt 32 v.toInt).setWidth 64 = BitVec.ofInt 64 v.toInt := by
  have hlt := v.toInt_lt
  apply BitVec.eq_of_toNat_eq
  simp only [BitVec.toNat_setWidth, BitVec.toNat_ofInt]
  omega

/-- A loaded immediate is sign-extended exactly in the 64-bit form. -/
theorem exec_loadImm32 (s : State) (r : Reg) (v : Int32) (size : OpSize) :
    ∃ t, (loadImm32 r v size.isWide).exec s = some (t, .next) ∧
      t.regs r = (low size (BitVec.ofInt 64 v.toInt)).setWidth 64 ∧
      (∀ x, x ≠ r → t.regs x = s.regs x) ∧ t.mem = s.mem := by
  unfold loadImm32
  split
  · rename_i h
    rw [Bool.and_eq_true] at h
    cases size with
    | narrow => cases h.1
    | wide => exact ⟨_, rfl, by simp, fun x hx => by simp [hx], rfl⟩
  · rename_i hneg
    split
    · rename_i hz
      refine ⟨_, rfl, ?_, fun x hx => by simp [State.alu, hx], rfl⟩
      rw [hz]
      simp only [State.alu, AluOp.apply, BitVec.xor_self, State.regs_setFlags, State.regs_put, if_true]
      cases size <;> rfl
    · refine ⟨_, rfl, ?_, fun x hx => by simp [hx], rfl⟩
      simp only [State.regs_put, if_true]
      cases size with
      | narrow => rw [← ofInt_eq_low]
      | wide =>
        have hv : 0 ≤ v.toInt := by
          simp only [OpSize.isWide, Bool.true_and, decide_eq_true_eq, Int32.lt_iff_toInt_lt,
            Int32.toInt_zero] at hneg
          omega
        rw [low_wide, setWidth_ofInt_of_nonneg hv]
        exact (BitVec.setWidth_eq _).symm

/-- The instruction that brings an operand to a native register. -/
def loadOperand (size : OpSize) (r : Reg) : Operand → Instr
  | .reg src => .mov size r src.native
  | .imm v => loadImm32 r v size.isWide

/-- An operand is brought to a register. -/
theorem exec_loadOperand (ha : Agrees s regs) {src : Operand} (hs : src.IsGeneral) (size : OpSize)
    (r : Reg) :
    ∃ t, (loadOperand size r src).exec s = some (t, .next) ∧
      t.regs r = (low size (src.value regs)).setWidth 64 ∧
      (∀ x, x ≠ r → t.regs x = s.regs x) ∧ t.mem = s.mem := by
  cases src with
  | reg src =>
    rw [Operand.value, ← ha.value_eq hs]
    exact ⟨_, rfl, by simp, fun x hx => by simp [hx], rfl⟩
  | imm v => exact exec_loadImm32 s r v size

/-- A lowered move computes. -/
theorem sets_move (ha : Agrees s regs) {src : Operand} (hs : src.IsGeneral) :
    ∃ t, execAll (Lowering.move size dst src) s = some t ∧
      Sets s t dst.native ((low size (src.value regs)).setWidth 64) := by
  have hcode : Lowering.move size dst src = [loadOperand size dst.native src] := by cases src <;> rfl
  obtain ⟨t, ht, hv, hr, hm⟩ := exec_loadOperand ha hs size dst.native
  refine ⟨t, ?_, .of_mem_eq hv (fun r hne _ => hr r hne) hm⟩
  rw [hcode, execAll_next ht, execAll]

/-- A lowered negation computes. -/
theorem sets_negate (ha : Agrees s regs) (hd : dst.IsGeneral) :
    ∃ t, execAll [.neg size dst.native] s = some t ∧
      Sets s t dst.native ((-low size (regs dst)).setWidth 64) := by
  rw [← ha.value_eq hd]
  exact ⟨_, rfl, .of_mem_eq (by simp) (fun r hr _ => by simp [hr]) rfl⟩

/-- A 64-bit immediate is loaded as it is. -/
theorem exec_loadImm64 (s : State) (r : Reg) (v : UInt64) :
    ∃ t, (loadImm64 r v).exec s = some (t, .next) ∧ t.regs r = v.toBitVec ∧
      (∀ x, x ≠ r → t.regs x = s.regs x) ∧ t.mem = s.mem := by
  unfold loadImm64
  split
  · rename_i h
    have hlt : v.toNat < 2 ^ 32 := of_decide_eq_true h
    obtain ⟨t, ht, hv, hr, hm⟩ := exec_loadImm32 s r v.toUInt32.toInt32 .narrow
    have hvalue : (low .narrow (BitVec.ofInt 64 v.toUInt32.toInt32.toInt)).setWidth 64 =
        v.toBitVec := by
      rw [← ofInt_eq_low]
      change (BitVec.ofInt 32 v.toUInt32.toInt32.toBitVec.toInt).setWidth 64 = v.toBitVec
      rw [BitVec.ofInt_toInt]
      apply BitVec.eq_of_toNat_eq
      simp only [UInt32.toBitVec_toInt32, UInt64.toBitVec_toUInt32, BitVec.toNat_setWidth,
        UInt64.toNat_toBitVec]
      omega
    rw [hvalue] at hv
    exact ⟨t, ht, hv, hr, hm⟩
  · exact ⟨_, rfl, by simp, fun x hx => by simp [hx], rfl⟩

/-- A lowered 64-bit immediate load computes. -/
theorem sets_loadWide (s : State) (dst : VReg) (v : UInt64) :
    ∃ t, execAll [loadImm64 dst.native v] s = some t ∧ Sets s t dst.native v.toBitVec := by
  obtain ⟨t, ht, hv, hr, hm⟩ := exec_loadImm64 s dst.native v
  refine ⟨t, ?_, .of_mem_eq hv (fun r hne _ => hr r hne) hm⟩
  rw [execAll_next ht, execAll]

end Single

section Order

variable {s : State} {regs : Registers} {dst : VReg}

/-- The bytes of a number are those of its low part. -/
theorem littleEndian_mod (count n : Nat) :
    Bytes.littleEndian count (n % 256 ^ count) = Bytes.littleEndian count n := by
  induction count generalizing n with
  | zero => rfl
  | succ count ih =>
    have hfirst : UInt8.ofNat (n % 256 ^ (count + 1)) = UInt8.ofNat n := by
      apply UInt8.toNat_inj.mp
      rw [UInt8.toNat_ofNat', UInt8.toNat_ofNat', Nat.pow_succ']
      exact Nat.mod_mul_right_mod n 256 (256 ^ count)
    rw [Bytes.littleEndian, Bytes.littleEndian, hfirst, Nat.pow_succ',
      Nat.mod_mul_right_div_self, ih]

/-- A number of some bytes fits them. -/
theorem value_lt (bytes : List UInt8) : Bytes.value bytes < 256 ^ bytes.length := by
  induction bytes with
  | nil => exact Nat.zero_lt_one
  | cons b rest ih =>
    have hb := b.toNat_lt
    rw [Bytes.value, List.length_cons, Nat.pow_succ]
    omega

/-- Bytes in little order are the low part of the number. -/
theorem orderedBytes_little {n count : Nat} (a : BitVec 64) (hn : 256 ^ count = 2 ^ n) :
    orderedBytes false count a = (a.setWidth n).setWidth 64 := by
  apply BitVec.eq_of_toNat_eq
  have hrange : 1 <<< (8 * count) = 2 ^ n := by
    rw [Nat.one_shiftLeft, Nat.pow_mul]
    exact hn
  simp only [orderedBytes, Bool.false_eq_true, if_false, Bytes.value_littleEndian,
    BitVec.toNat_setWidth, BitVec.toNat_ofNat, hrange]

/-- Bytes in big order are the low part with its bytes in the opposite order. -/
theorem orderedBytes_big {n count : Nat} (a : BitVec 64) (hn : 256 ^ count = 2 ^ n) (h64 : n ≤ 64) :
    orderedBytes true count a = (reverseWord count (a.setWidth n)).setWidth 64 := by
  apply BitVec.eq_of_toNat_eq
  have hlt := value_lt (Bytes.littleEndian count a.toNat).reverse
  have hpow : 2 ^ n ≤ 2 ^ 64 := Nat.pow_le_pow_right (by decide) h64
  rw [List.length_reverse, Bytes.length_littleEndian, hn] at hlt
  simp only [orderedBytes, if_true, reverseWord, BitVec.toNat_setWidth, BitVec.toNat_ofNat]
  rw [← hn, littleEndian_mod, hn, Nat.mod_eq_of_lt hlt]

/-- Turning sixteen bits by eight reverses two bytes. -/
theorem rotateLeft_eq (a : BitVec 16) : a.rotateLeft 8 = reverseWord 2 a := by
  have ha := a.isLt
  have hrot : a.rotateLeft 8 = a <<< 8 ||| a >>> 8 := rfl
  apply BitVec.eq_of_toNat_eq
  rw [hrot, reverseWord, BitVec.toNat_or, BitVec.toNat_shiftLeft, BitVec.toNat_ushiftRight,
    BitVec.toNat_ofNat]
  have hshift : a.toNat <<< 8 % 2 ^ 16 = (a.toNat % 256) <<< 8 := by
    rw [Nat.shiftLeft_eq, Nat.shiftLeft_eq]
    omega
  have hsmall : a.toNat >>> 8 < 2 ^ 8 := by
    rw [Nat.shiftRight_eq_div_pow]
    omega
  rw [hshift, ← Nat.shiftLeft_add_eq_or_of_lt hsmall, Nat.shiftLeft_eq, Nat.shiftRight_eq_div_pow]
  simp only [Bytes.littleEndian, List.reverse_cons, List.reverse_nil, List.nil_append,
    List.cons_append, Bytes.value, UInt8.toNat_ofNat', Nat.mul_zero, Nat.add_zero]
  have hsum : a.toNat / 256 % 2 ^ 8 + 256 * (a.toNat % 2 ^ 8) < 2 ^ 16 := by omega
  rw [Nat.mod_eq_of_lt hsum]
  omega

/-- The upper part of a word does not reach its low sixteen bits. -/
theorem setWidth_upper_or (a : BitVec 64) (b : BitVec 16) :
    ((a >>> 16 <<< 16) ||| b.setWidth 64).setWidth 16 = b := by
  ext i hi
  simp

/-- A lowered byte order conversion computes. -/
theorem sets_convert (ha : Agrees s regs) (hd : dst.IsGeneral) (order : ByteOrder) {width : Width}
    (hw : width ≠ .byte) :
    ∃ t, execAll (Lowering.convert order width dst) s = some t ∧
      Sets s t dst.native (orderedBytes (order = .big) width.bytes (regs dst)) := by
  rw [← ha dst hd]
  cases order with
  | little =>
    rw [decide_eq_false (by decide)]
    cases width with
    | byte => exact absurd rfl hw
    | half =>
      rw [orderedBytes_little _ (show 256 ^ Width.half.bytes = 2 ^ 16 by decide)]
      exact ⟨_, rfl, .of_mem_eq (by simp) (fun r hr _ => by simp [hr]) rfl⟩
    | word =>
      rw [orderedBytes_little _ (show 256 ^ Width.word.bytes = 2 ^ 32 by decide)]
      exact ⟨_, rfl, .put s .narrow dst.native _⟩
    | double =>
      rw [orderedBytes_little _ (show 256 ^ Width.double.bytes = 2 ^ 64 by decide)]
      exact ⟨_, rfl, .of_mem_eq (by simp) (fun r hr _ => rfl) rfl⟩
  | big =>
    rw [decide_eq_true rfl]
    cases width with
    | byte => exact absurd rfl hw
    | half =>
      rw [orderedBytes_big _ (show 256 ^ Width.half.bytes = 2 ^ 16 by decide) (by decide)]
      refine ⟨_, rfl, .of_mem_eq ?_ (fun r hr _ => by simp [hr]) rfl⟩
      simp only [State.regs_setReg, State.regs_setFlags, if_true, setWidth_upper_or, rotateLeft_eq]
      rfl
    | word =>
      rw [orderedBytes_big _ (show 256 ^ Width.word.bytes = 2 ^ 32 by decide) (by decide)]
      exact ⟨_, rfl, .put s .narrow dst.native _⟩
    | double =>
      rw [orderedBytes_big _ (show 256 ^ Width.double.bytes = 2 ^ 64 by decide) (by decide)]
      exact ⟨_, rfl, .put s .wide dst.native _⟩

end Order

section Shift

variable {s : State} {regs : Registers} {dst : VReg} {size : OpSize} {op : ShiftOp}

/-- A shift by nothing changes nothing. -/
theorem ShiftOp.apply_zero {n : Nat} (op : ShiftOp) (a : BitVec n) : op.apply a 0 = a := by
  cases op <;> simp [ShiftOp.apply]

/-- A shift of a register gives the result of the shift by the same masked count. -/
theorem shift_eq {r : Reg} {count : Nat} {b v : BitVec size.bits}
    (h : shiftResult op.apply (s.value size r) b = some v)
    (hc : count % size.bits = b.toNat % size.bits) :
    ∃ t, s.shift op size r count = some t ∧ t.regs r = v.setWidth 64 ∧
      (∀ x, x ≠ r → t.regs x = s.regs x) ∧ t.mem = s.mem := by
  unfold shiftResult at h
  split at h
  · cases h
  · rename_i hn
    cases h
    unfold State.shift
    rw [hc]
    by_cases hz : b.toNat % size.bits = 0
    · cases size with
      | narrow => exact absurd ⟨rfl, hz⟩ hn
      | wide =>
        refine ⟨s, by rw [if_pos hz]; rfl, ?_, fun x _ => rfl, rfl⟩
        rw [hz, ShiftOp.apply_zero, State.value_wide]
        exact (BitVec.setWidth_eq _).symm
    · exact ⟨(s.put size r (op.apply (s.value size r) (b.toNat % size.bits))).setFlags none,
        by rw [if_neg hz], by simp, fun x hx => by simp [hx], rfl⟩

/-- The low byte of an immediate is as good as the immediate as a count. -/
theorem count_of_imm (size : OpSize) (v : Int32) : v.toUInt32.toUInt8.toNat % size.bits =
    (low size (BitVec.ofInt 64 v.toInt)).toNat % size.bits := by
  have hv : (v.toUInt32.toNat : Int) = v.toInt % 2 ^ 32 := by
    have h : BitVec.ofInt 32 v.toInt = v.toBitVec := BitVec.ofInt_toInt
    have hn : (BitVec.ofInt 32 v.toInt).toNat = v.toUInt32.toNat := by
      rw [h]
      rfl
    rw [BitVec.toNat_ofInt] at hn
    omega
  have hbyte : v.toUInt32.toUInt8.toNat = v.toUInt32.toNat % 256 := UInt32.toNat_toUInt8 _
  rw [← ofInt_eq_low, hbyte]
  cases size with
  | narrow =>
    change v.toUInt32.toNat % 256 % 32 = (BitVec.ofInt 32 v.toInt).toNat % 32
    rw [BitVec.toNat_ofInt]
    omega
  | wide =>
    change v.toUInt32.toNat % 256 % 64 = (BitVec.ofInt 64 v.toInt).toNat % 64
    rw [BitVec.toNat_ofInt]
    omega

/-- The low byte of a word is as good as the word as a count. -/
theorem count_of_word (size : OpSize) (a : BitVec 64) :
    a.toNat % 256 % size.bits = (low size a).toNat % size.bits := by
  cases size with
  | narrow =>
    change a.toNat % 256 % 32 = (a.setWidth 32).toNat % 32
    rw [BitVec.toNat_setWidth]
    omega
  | wide =>
    change a.toNat % 256 % 64 = (low .wide a).toNat % 64
    rw [low_wide]
    omega

/-- A lowered shift by an immediate computes. -/
theorem sets_shiftImm (ha : Agrees s regs) (hd : dst.IsGeneral) {imm : Int32} {v : BitVec size.bits}
    (h : shiftResult op.apply (low size (regs dst)) (low size (BitVec.ofInt 64 imm.toInt)) = some v) :
    ∃ t, execAll (Lowering.shift op size dst (.imm imm)) s = some t ∧
      Sets s t dst.native (v.setWidth 64) := by
  rw [← ha.value_eq hd] at h
  obtain ⟨t, ht, hv, hr, hm⟩ := shift_eq h (count_of_imm size imm)
  refine ⟨t, ?_, .of_mem_eq hv (fun r hne _ => hr r hne) hm⟩
  have hexec : (shiftBy op size dst.native imm.toUInt32.toUInt8).exec s =
      (s.shift op size dst.native imm.toUInt32.toUInt8.toNat).bind State.next := by
    unfold shiftBy
    split
    · rename_i h1
      rw [h1]
      rfl
    · rfl
  rw [Lowering.shift, execAll, hexec, ht]
  rfl

/-- A shift by the count register gives the result of the shift by its word. -/
theorem exec_shiftCount {r : Reg} {v : BitVec size.bits}
    (h : shiftResult op.apply (s.value size r) (low size (s.regs .rcx)) = some v) :
    ∃ t, (Instr.shiftCount op size r).exec s = some (t, .next) ∧ t.regs r = v.setWidth 64 ∧
      (∀ x, x ≠ r → t.regs x = s.regs x) ∧ t.mem = s.mem := by
  obtain ⟨t, ht, hv, hr, hm⟩ := shift_eq h (count_of_word size (s.regs .rcx))
  refine ⟨t, ?_, hv, hr, hm⟩
  rw [Instr.exec, ht]
  rfl

/-- The count register is saved, loaded with the count, and restored behind a shift of another
register. -/
theorem exec_countLoaded (hroom : s.Room 8) {r src : Reg} {v : BitVec size.bits} (hsrc : src ≠ .rsp)
    (hr1 : r ≠ .rcx) (hr2 : r ≠ .rsp)
    (h : shiftResult op.apply (s.value size r) (low size (s.regs src)) = some v) :
    ∃ t, execAll [.push .rcx, .mov .wide .rcx src, .shiftCount op size r, .pop .rcx] s = some t ∧
      t.regs r = v.setWidth 64 ∧ (∀ x, x ≠ r → t.regs x = s.regs x) ∧ KeepsMemory s t 8 := by
  have hload : (Instr.mov .wide .rcx src).exec (s.pushed (s.regs .rcx)) =
      some ((s.pushed (s.regs .rcx)).put .wide .rcx (s.regs src), .next) := by
    simp [Instr.exec, State.next, State.pushed, hsrc]
  -- the shift sees the count in its register and the shifted register unchanged
  have hshift : shiftResult op.apply
      (((s.pushed (s.regs .rcx)).put .wide .rcx (s.regs src)).value size r)
      (low size (((s.pushed (s.regs .rcx)).put .wide .rcx (s.regs src)).regs .rcx)) = some v := by
    simpa [State.value_eq_low, State.pushed, hr1, hr2] using h
  obtain ⟨t, ht, hv, hr, hm⟩ := exec_shiftCount hshift
  have hbody : execAll [.mov .wide .rcx src, .shiftCount op size r] (s.pushed (s.regs .rcx)) =
      some t := by
    rw [execAll_next hload, execAll_next ht, execAll]
  have hkeep : ∀ x, x ≠ .rcx → x ≠ r → t.regs x = (s.pushed (s.regs .rcx)).regs x := by
    intro x h1 h2
    rw [hr x h2, State.regs_put, if_neg h1]
  obtain ⟨u, hu, hsame, hregs, hk⟩ := exec_saved .rcx (by decide) hroom hbody
    (hkeep .rsp (by decide) hr2.symm)
    (.of_eq (show t.mem = (s.pushed (s.regs .rcx)).mem from hm) 0) (by decide)
  exact ⟨u, hu, by rw [hregs r hr1 hr2, hv], fun x hx => hsame x fun h1 => hkeep x h1 hx, hk⟩

/-- The count register itself is shifted in the scratch register. -/
theorem sets_throughScratch {body : List Instr} {v : BitVec 64} {t : State}
    (h : execAll body (s.put .wide .r11 (s.regs .rcx)) = some t) (hv : t.regs .r11 = v)
    (hr : ∀ x, x ≠ .r11 → t.regs x = s.regs x) (hk : KeepsMemory s t 8) :
    ∃ u, execAll ([.mov .wide .r11 .rcx] ++ body ++ [.mov .wide .rcx .r11]) s = some u ∧
      Sets s u .rcx v := by
  have hfirst : (Instr.mov .wide .r11 .rcx).exec s =
      some (s.put .wide .r11 (s.regs .rcx), .next) := by
    rw [Instr.exec, State.value_wide]
    rfl
  refine ⟨t.put .wide .rcx (t.regs .r11), ?_, ?_⟩
  · rw [List.append_assoc, List.singleton_append, execAll_next hfirst, execAll_append, h,
      Option.bind_some, execAll, Instr.exec, State.value_wide]
    rfl
  · exact ⟨by simp [hv], fun r h1 h2 => by simp [h1, hr r h2],
      (show KeepsMemory s (t.put .wide .rcx (t.regs .r11)) 8 from ⟨hk.byte_eq, hk.mapped_eq⟩).mono
        (by decide)⟩

/-- A lowered shift by a register computes. -/
theorem sets_shiftReg (ha : Agrees s regs) (hroom : s.Room 16) (hd : dst.IsGeneral) {src : VReg}
    (hs : src.IsGeneral) {v : BitVec size.bits}
    (h : shiftResult op.apply (low size (regs dst)) (low size (regs src)) = some v) :
    ∃ t, execAll (Lowering.shiftReg op size dst src) s = some t ∧
      Sets s t dst.native (v.setWidth 64) := by
  have hroom8 : s.Room 8 := fun a hlt => hroom a (by omega)
  rw [← ha dst hd, ← ha src hs] at h
  have hsrc : src.native ≠ .rsp := hs.native_ne.1
  have hcopy : src ≠ .r4 → copy .rcx src.native = [.mov .wide .rcx src.native] := by
    intro hne
    rw [copy, if_neg]
    intro heq
    exact hne (VReg.native_inj.mp (show src.native = VReg.r4.native from heq.symm))
  unfold Lowering.shiftReg
  by_cases hd4 : dst = .r4
  · subst hd4
    -- the shift works on a copy of the destination in the scratch register
    have hscratch : shiftResult op.apply ((s.put .wide .r11 (s.regs .rcx)).value size .r11)
        (low size ((s.put .wide .r11 (s.regs .rcx)).regs src.native)) = some v := by
      rw [show VReg.r4.native = .rcx from rfl] at h
      simpa [State.value_eq_low, hs.native_ne.2.2] using h
    have hregs : ∀ x, x ≠ .r11 → (s.put .wide .r11 (s.regs .rcx)).regs x = s.regs x := by
      intro x hx
      simp [hx]
    by_cases hs4 : src = .r4
    · subst hs4
      obtain ⟨t, ht, hv, hr, hm⟩ := exec_shiftCount hscratch
      have hbody : execAll [.shiftCount op size .r11] (s.put .wide .r11 (s.regs .rcx)) = some t := by
        rw [execAll_next ht, execAll]
      exact sets_throughScratch hbody hv (fun x hx => (hr x hx).trans (hregs x hx))
        (.of_eq (show t.mem = s.mem from hm) 8)
    · have hroomScratch : (s.put .wide .r11 (s.regs .rcx)).Room 8 := hroom8
      obtain ⟨t, ht, hv, hr, hk⟩ :=
        exec_countLoaded hroomScratch hsrc (by decide) (by decide) hscratch
      simp only [hs4, if_true, if_false, hcopy hs4]
      exact sets_throughScratch ht hv (fun x hx => (hr x hx).trans (hregs x hx))
        ⟨hk.byte_eq, hk.mapped_eq⟩
  · have hne : dst.native ≠ .rcx := fun heq => hd4 (VReg.native_inj.mp heq)
    by_cases hs4 : src = .r4
    · subst hs4
      obtain ⟨t, ht, hv, hr, hm⟩ := exec_shiftCount h
      refine ⟨t, ?_, .of_mem_eq hv (fun r hne _ => hr r hne) hm⟩
      simp only [hd4, if_false, if_true, List.nil_append, List.append_nil]
      rw [execAll_next ht, execAll]
    · obtain ⟨t, ht, hv, hr, hk⟩ := exec_countLoaded hroom8 hsrc hne hd.native_ne.1 h
      refine ⟨t, ?_, hv, fun r hne _ => hr r hne, hk.mono (by decide)⟩
      simp only [hd4, hs4, if_false, List.nil_append, List.append_nil, hcopy hs4]
      exact ht

end Shift

section Product

variable {s : State} {regs : Registers} {dst : VReg} {size : OpSize} {src : Operand}

/-- Code that keeps the general registers keeps the virtual ones. -/
theorem Agrees.congr {t : State} (ha : Agrees s regs)
    (h : ∀ r : VReg, r.IsGeneral → t.regs r.native = s.regs r.native) : Agrees t regs :=
  fun r hr => (h r hr).trans (ha r hr)

/-- A push keeps the virtual registers. -/
theorem Agrees.pushed (ha : Agrees s regs) (v : BitVec 64) : Agrees (s.pushed v) regs :=
  ha.congr fun r hr => by simp [State.pushed, hr.native_ne.1]

/-- A word cut to the size of an operand, put into a register and read at that size is itself. -/
theorem low_setWidth (a : BitVec size.bits) : low size (a.setWidth 64) = a := by
  have hbits : size.bits ≤ 64 := by cases size <;> decide
  rw [low, BitVec.setWidth_setWidth_of_le _ hbits, BitVec.setWidth_eq]

/-- Factors are brought to the accumulator and the scratch register and multiplied. -/
theorem exec_product (size : OpSize) (ha : Agrees s regs) (hd : dst.IsGeneral) (hs : src.IsGeneral) :
    ∃ t, execAll [.mov .wide .r11 dst.native, loadOperand size .rax src, .mul size .r11] s = some t ∧
      t.regs .rax = (low size (regs dst) * low size (src.value regs)).setWidth 64 ∧
      (∀ x, x ≠ .rax → x ≠ .rdx → x ≠ .r11 → t.regs x = s.regs x) ∧ t.mem = s.mem := by
  have hfirst : (Instr.mov .wide .r11 dst.native).exec s =
      some (s.put .wide .r11 (regs dst), .next) := by
    rw [Instr.exec, State.value_wide, ha dst hd]
    rfl
  have hagree : Agrees (s.put .wide .r11 (regs dst)) regs :=
    ha.congr fun r hr => by simp [hr.native_ne.2.2]
  obtain ⟨t, ht, hv, hr, hm⟩ := exec_loadOperand hagree hs size .rax
  refine ⟨t.multiply size .r11, ?_, ?_, fun x h1 h2 h3 => ?_, hm⟩
  · rw [execAll_next hfirst, execAll_next ht, execAll]
    rfl
  · have hscratch : t.regs .r11 = regs dst := by rw [hr .r11 (by decide)]; simp
    simp only [State.multiply, State.regs_setFlags, State.regs_put, State.value_eq_low, hv,
      hscratch, low_setWidth]
    rw [if_neg (by decide), if_pos trivial, Nat.mul_comm]
    rfl
  · simp [State.multiply, h1, h2, hr x h1, h3]

/-- The result of code that works on the accumulator is brought to another register, and the
accumulator is restored. -/
theorem sets_fromAccumulator {body : List Instr} {u : State} (hroom : s.Room 8)
    (hd : dst.IsGeneral) (hne : dst ≠ .r0) (hu : execAll body (s.pushed (s.regs .rax)) = some u)
    (hr : ∀ x, x ≠ .rax → x ≠ dst.native → x ≠ .r11 →
      u.regs x = (s.pushed (s.regs .rax)).regs x)
    (hk : KeepsMemory (s.pushed (s.regs .rax)) u 8) :
    ∃ w, execAll (.push .rax :: (body ++ copy dst.native .rax) ++ [.pop .rax]) s = some w ∧
      Sets s w dst.native (u.regs .rax) := by
  have hrax : dst.native ≠ .rax := fun h => hne (VReg.native_inj.mp h)
  have hbody : execAll (body ++ copy dst.native .rax) (s.pushed (s.regs .rax)) =
      some (u.put .wide dst.native (u.regs .rax)) := by
    rw [execAll_append, hu, Option.bind_some, copy, if_neg hrax, execAll, Instr.exec,
      State.value_wide]
    rfl
  have hregs : ∀ x, x ≠ .rax → x ≠ dst.native → x ≠ .r11 →
      (u.put .wide dst.native (u.regs .rax)).regs x = (s.pushed (s.regs .rax)).regs x := by
    intro x h1 h2 h3
    rw [State.regs_put, if_neg h2, hr x h1 h2 h3]
  obtain ⟨w, hw, hsame, hkeep, hm⟩ := exec_saved .rax (by decide) hroom hbody
    (hregs .rsp (by decide) hd.native_ne.1.symm (by decide)) ⟨hk.byte_eq, hk.mapped_eq⟩ (by decide)
  refine ⟨w, hw, ?_, fun x h1 h2 => hsame x fun h => hregs x h h1 h2, hm⟩
  rw [hkeep _ hrax hd.native_ne.1]
  simp

/-- A lowered multiplication computes. -/
theorem sets_multiply (ha : Agrees s regs) (hroom : s.Room 16) (hd : dst.IsGeneral)
    (hs : src.IsGeneral) :
    ∃ t, execAll (Lowering.multiply size dst src) s = some t ∧ Sets s t dst.native
      ((low size (regs dst) * low size (src.value regs)).setWidth 64) := by
  have hroom8 : s.Room 8 := fun a hlt => hroom a (by omega)
  have hcopy : copy VReg.aux.native dst.native = [.mov .wide .r11 dst.native] :=
    if_neg hd.native_ne.2.2.symm
  by_cases hd0 : dst = .r0
  · -- the product is in its place; only the register of its upper half is saved
    subst hd0
    have hcode : Lowering.multiply size .r0 src = .push .rdx ::
        [.mov .wide .r11 VReg.r0.native, loadOperand size .rax src, .mul size .r11] ++ [.pop .rdx] := by
      cases src <;> rfl
    obtain ⟨t, ht, hv, hr, hm⟩ := exec_product size (ha.pushed (s.regs .rdx)) hd hs
    obtain ⟨u, hu, hsame, hregs, hk⟩ := exec_saved .rdx (by decide) hroom8 ht
      (hr .rsp (by decide) (by decide) (by decide)) (.of_eq hm 0) (by decide)
    refine ⟨u, by rw [hcode]; exact hu, ?_, fun x h1 h2 => hsame x fun h => hr x h1 h h2,
      hk.mono (by decide)⟩
    rw [show VReg.r0.native = .rax from rfl, hregs .rax (by decide) (by decide), hv]
  · by_cases hd3 : dst = .r3
    · subst hd3
      have hcode : Lowering.multiply size .r3 src = .push .rax ::
          ([.mov .wide .r11 VReg.r3.native, loadOperand size .rax src, .mul size .r11] ++
            copy VReg.r3.native .rax) ++ [.pop .rax] := by
        cases src <;> rfl
      obtain ⟨t, ht, hv, hr, hm⟩ := exec_product size (ha.pushed (s.regs .rax)) hd hs
      rw [hcode, ← hv]
      exact sets_fromAccumulator hroom8 hd hd0 ht hr (.of_eq hm 8)
    · have hcode : Lowering.multiply size dst src = .push .rax ::
          ((.push .rdx ::
            [.mov .wide .r11 dst.native, loadOperand size .rax src, .mul size .r11] ++ [.pop .rdx]) ++
            copy dst.native .rax) ++ [.pop .rax] := by
        simp only [Lowering.multiply, hd0, hd3, if_false, hcopy, List.append_assoc]
        cases src <;> rfl
      obtain ⟨t, ht, hv, hr, hm⟩ :=
        exec_product size ((ha.pushed (s.regs .rax)).pushed ((s.pushed (s.regs .rax)).regs .rdx)) hd hs
      obtain ⟨u, hu, hsame, hregs, hk⟩ := exec_saved .rdx (by decide) (hroom.pushed _) ht
        (hr .rsp (by decide) (by decide) (by decide)) (.of_eq hm 0) (by decide)
      rw [hcode, ← hv, ← hregs .rax (by decide) (by decide)]
      exact sets_fromAccumulator hroom8 hd hd0 hu
        (fun x h1 _ h3 => hsame x fun h => hr x h1 h h3) hk

end Product

section Quotient

variable {s : State} {regs : Registers} {dst : VReg} {size : OpSize} {src : Operand}
  {part : DivisionPart}

/-- The register that a part of a division is left in. -/
def divisionReg : DivisionPart → Reg
  | .quotient => .rax
  | .remainder => .rdx

/-- A division with an empty upper half of the dividend gives both parts. -/
theorem divide_eq {r : Reg} {v : BitVec size.bits} (hupper : s.value size .rdx = 0)
    (h : divisionResult part (s.value size .rax) (s.value size r) = some v) :
    ∃ t, s.divide size r = some t ∧ t.regs (divisionReg part) = v.setWidth 64 ∧
      (∀ x, x ≠ .rax → x ≠ .rdx → t.regs x = s.regs x) ∧ t.mem = s.mem := by
  unfold divisionResult at h
  split at h
  · cases h
  · rename_i hz
    have hpos : (s.value size r).toNat ≠ 0 := fun hn => hz (BitVec.eq_of_toNat_eq hn)
    have hfits : (s.value size .rax).toNat / (s.value size r).toNat < 2 ^ size.bits :=
      Nat.lt_of_le_of_lt (Nat.div_le_self _ _) (s.value size .rax).isLt
    unfold State.divide
    rw [hupper]
    simp only [BitVec.ofNat_eq_ofNat, BitVec.toNat_ofNat, Nat.zero_mod, Nat.zero_mul, Nat.zero_add]
    rw [if_neg (by omega)]
    refine ⟨_, rfl, ?_, fun x h1 h2 => by simp [h1, h2], rfl⟩
    cases part with
    | quotient =>
      cases h
      simp only [divisionReg, State.regs_setFlags, State.regs_put]
      rw [if_neg (by decide), if_pos trivial, BitVec.udiv_def]
    | remainder =>
      cases h
      simp only [divisionReg, State.regs_setFlags, State.regs_put]
      rw [if_pos trivial, BitVec.umod_def]

/-- A register is copied unless it is its own copy. -/
theorem exec_copy (s : State) (dst src : Reg) :
    ∃ t, execAll (copy dst src) s = some t ∧ t.regs dst = s.regs src ∧
      (∀ x, x ≠ dst → t.regs x = s.regs x) ∧ t.mem = s.mem := by
  unfold copy
  split
  · rename_i h
    exact ⟨s, rfl, by rw [h], fun x _ => rfl, rfl⟩
  · exact ⟨_, rfl, by simp, fun x hx => by simp [hx], rfl⟩

/-- Dividend and divisor are brought to their registers and divided, and the part that is asked for
is left in the scratch register. -/
theorem exec_quotient (ha : Agrees s regs) (hd : dst.IsGeneral) (hs : src.IsGeneral)
    {v : BitVec size.bits}
    (h : divisionResult part (low size (regs dst)) (low size (src.value regs)) = some v) :
    ∃ t, execAll (loadOperand .wide .r11 src :: copy .rax dst.native ++
        [.alu .xor .narrow .rdx .rdx, .div size .r11, .mov .wide .r11 (divisionReg part)]) s = some t ∧
      t.regs .r11 = v.setWidth 64 ∧
      (∀ x, x ≠ .rax → x ≠ .rdx → x ≠ .r11 → t.regs x = s.regs x) ∧ t.mem = s.mem := by
  obtain ⟨t1, h1, hv1, hr1, hm1⟩ := exec_loadOperand ha hs .wide .r11
  obtain ⟨t2, h2, hv2, hr2, hm2⟩ := exec_copy t1 .rax dst.native
  rw [hr1 _ hd.native_ne.2.2, ha dst hd] at hv2
  rw [low_wide, BitVec.setWidth_eq] at hv1
  -- the upper half of the dividend is cleared, at either size
  have h3 : (Instr.alu .xor .narrow .rdx .rdx).exec t2 =
      some (t2.alu .xor .narrow .rdx (t2.value .narrow .rdx), .next) := rfl
  have hv3 : (t2.alu .xor .narrow .rdx (t2.value .narrow .rdx)).regs .rdx = 0 := by
    simp [State.alu, AluOp.apply]
  have hr3 : ∀ x, x ≠ .rdx →
      (t2.alu .xor .narrow .rdx (t2.value .narrow .rdx)).regs x = t2.regs x := by
    intro x hx
    simp [State.alu, hx]
  have hm3 : (t2.alu .xor .narrow .rdx (t2.value .narrow .rdx)).mem = t2.mem := rfl
  generalize t2.alu .xor .narrow .rdx (t2.value .narrow .rdx) = t3 at h3 hv3 hr3 hm3
  rw [← hv1, ← hv2, ← hr2 .r11 (by decide), ← hr3 .rax (by decide), ← hr3 .r11 (by decide)] at h
  have hupper : t3.value size .rdx = 0 := by
    rw [State.value, hv3]
    simp
  obtain ⟨t4, h4, hv4, hr4, hm4⟩ := divide_eq hupper h
  have hdiv : (Instr.div size .r11).exec t3 = some (t4, .next) := by
    rw [Instr.exec, h4]
    rfl
  refine ⟨t4.put .wide .r11 (t4.regs (divisionReg part)), ?_, by simp [hv4], fun x hx1 hx2 hx3 => ?_,
    ?_⟩
  · rw [List.cons_append, execAll_next h1, execAll_append, h2, Option.bind_some, execAll_next h3,
      execAll_next hdiv, execAll, Instr.exec, State.value_wide]
    rfl
  · rw [State.regs_put, if_neg hx3, hr4 x hx1 hx2, hr3 x hx2, hr2 x hx1, hr1 x hx3]
  · rw [State.mem_put, hm4, hm3, hm2, hm1]

/-- A lowered division computes. -/
theorem sets_divide (ha : Agrees s regs) (hroom : s.Room 16) (hd : dst.IsGeneral)
    (hs : src.IsGeneral) {v : BitVec size.bits}
    (h : divisionResult part (low size (regs dst)) (low size (src.value regs)) = some v) :
    ∃ t, execAll (Lowering.divide part size dst src) s = some t ∧
      Sets s t dst.native (v.setWidth 64) := by
  have hcode : Lowering.divide part size dst src = (.push .rax :: (.push .rdx ::
      (loadOperand .wide .r11 src :: copy .rax dst.native ++
        [.alu .xor .narrow .rdx .rdx, .div size .r11, .mov .wide .r11 (divisionReg part)]) ++
      [.pop .rdx]) ++ [.pop .rax]) ++ copy dst.native .r11 := by
    cases src with
    | reg r =>
      have hcopy : copy VReg.aux.native r.native = [.mov .wide .r11 r.native] :=
        if_neg (VReg.IsGeneral.native_ne hs).2.2.symm
      simp only [Lowering.divide, hcopy]
      cases part <;> simp [loadOperand, divisionReg, VReg.native]
    | imm v =>
      cases part <;> simp [Lowering.divide, loadOperand, divisionReg, VReg.native, OpSize.isWide]
  have hroom8 : s.Room 8 := fun a hlt => hroom a (by omega)
  have hagree := (ha.pushed (s.regs .rax)).pushed ((s.pushed (s.regs .rax)).regs .rdx)
  obtain ⟨t, ht, hv, hr, hm⟩ := exec_quotient hagree hd hs h
  obtain ⟨u, hu, hsame, hregs, hk⟩ := exec_saved .rdx (by decide) (hroom.pushed _) ht
    (hr .rsp (by decide) (by decide) (by decide)) (.of_eq hm 0) (by decide)
  have hkeep : ∀ x, x ≠ .rax → x ≠ .r11 → u.regs x = (s.pushed (s.regs .rax)).regs x :=
    fun x h1 h3 => hsame x fun h2 => hr x h1 h2 h3
  obtain ⟨w, hw, hsame', hregs', hk'⟩ := exec_saved .rax (by decide) hroom8 hu
    (hkeep .rsp (by decide) (by decide)) hk (by decide)
  obtain ⟨z, hz, hvz, hrz, hmz⟩ := exec_copy w dst.native .r11
  refine ⟨z, ?_, ?_, fun x h1 h2 => ?_, fun a hlt => ?_, ?_⟩
  · rw [hcode, execAll_append, hw]
    exact hz
  · rw [hvz, hregs' .r11 (by decide) (by decide), hregs .r11 (by decide) (by decide), hv]
  · rw [hrz x h1, hsame' x fun h => hkeep x h h2]
  · rw [hmz, hk'.byte_eq a hlt]
  · rw [hmz, hk'.mapped_eq]

end Quotient

namespace Virtual

/-- The operation computes on general registers; a conversion takes at least two bytes. -/
def Operation.IsArithmetic : Operation → Prop
  | .alu _ _ dst src | .shift _ _ dst src | .move _ dst src | .multiply _ dst src
  | .divide _ _ dst src => dst.IsGeneral ∧ src.IsGeneral
  | .negate _ dst | .loadWide dst _ => dst.IsGeneral
  | .convert _ width dst => dst.IsGeneral ∧ width ≠ .byte
  | _ => False

/-- The operation computes in a register, whichever it is. -/
def Operation.Computes : Operation → Prop
  | .alu .. | .shift .. | .move .. | .multiply .. | .divide .. | .negate .. | .loadWide ..
  | .convert .. => True
  | _ => False

/-- An operation that computes on general registers computes. -/
theorem Operation.IsArithmetic.computes {operation : Operation} (h : operation.IsArithmetic) :
    operation.Computes := by
  cases operation with
  | alu | shift | move | multiply | divide | negate | loadWide | convert => trivial
  | _ => exact h.elim

/-- A result of an operation is the result at its size. -/
theorem setting_eq_some {size : OpSize} {dst r : VReg} {result : Option (BitVec size.bits)}
    {v : BitVec 64} (h : setting size dst result = some (r, v)) :
    r = dst ∧ ∃ w, result = some w ∧ v = w.setWidth 64 := by
  obtain ⟨w, hw, heq⟩ := Option.map_eq_some_iff.mp h
  cases heq
  exact ⟨rfl, w, hw, rfl⟩

end Virtual

section Lowered

variable {p : Pass} {depth : UInt32} {index : Nat} {epilogue : Option Nat} {operation : Operation}
  {fragment : Fragment}

/-- The code of an arithmetic operation puts its result into the register of its destination. -/
theorem sets_lower {s : State} {regs : Registers} {dst : VReg} {v : BitVec 64}
    (h : p.lower depth index epilogue operation = .ok fragment) (ho : operation.IsArithmetic)
    (ha : Agrees s regs) (hroom : s.Room 16) (hv : operation.result regs = some (dst, v)) :
    dst.IsGeneral ∧ ∃ t, execAll fragment.code s = some t ∧ Sets s t dst.native v := by
  cases operation with
  | alu op size d src =>
    obtain ⟨rfl, w, hw, rfl⟩ := setting_eq_some hv
    cases h
    cases hw
    exact ⟨ho.1, sets_alu ha ho.1 ho.2⟩
  | shift op size d src =>
    obtain ⟨rfl, w, hw, rfl⟩ := setting_eq_some hv
    cases h
    cases src with
    | reg src => exact ⟨ho.1, sets_shiftReg ha hroom ho.1 ho.2 hw⟩
    | imm imm => exact ⟨ho.1, sets_shiftImm ha ho.1 hw⟩
  | move size d src =>
    obtain ⟨rfl, w, hw, rfl⟩ := setting_eq_some hv
    cases h
    cases hw
    exact ⟨ho.1, sets_move ha ho.2⟩
  | negate size d =>
    obtain ⟨rfl, w, hw, rfl⟩ := setting_eq_some hv
    cases h
    cases hw
    exact ⟨ho, sets_negate ha ho⟩
  | multiply size d src =>
    obtain ⟨rfl, w, hw, rfl⟩ := setting_eq_some hv
    cases h
    cases hw
    exact ⟨ho.1, sets_multiply ha hroom ho.1 ho.2⟩
  | divide part size d src =>
    obtain ⟨rfl, w, hw, rfl⟩ := setting_eq_some hv
    cases h
    exact ⟨ho.1, sets_divide ha hroom ho.1 ho.2 hw⟩
  | convert order width d =>
    cases hv
    cases h
    exact ⟨ho.1, sets_convert ha ho.1 order ho.2⟩
  | loadWide d value =>
    cases hv
    cases h
    exact ⟨ho, sets_loadWide s dst value⟩
  | load | probe | storeImm | store | atomic | fetch | jump | branch | exit | call | tailCall =>
    exact ho.elim

/-- Every instruction can be read back from its encoding. -/
def Encodable (code : List Instr) : Prop := ∀ i ∈ code, i.HasOwnEncoding

/-- Code in two parts can be read back if both parts can. -/
@[simp]
theorem encodable_append {front back : List Instr} :
    Encodable (front ++ back) ↔ Encodable front ∧ Encodable back :=
  List.forall_mem_append

/-- Code can be read back if its first instruction and the rest can. -/
@[simp]
theorem encodable_cons {i : Instr} {rest : List Instr} :
    Encodable (i :: rest) ↔ i.HasOwnEncoding ∧ Encodable rest :=
  List.forall_mem_cons

/-- No code can be read back. -/
@[simp]
theorem encodable_nil : Encodable [] := fun _ h => nomatch h

/-- A copy can be read back. -/
@[simp]
theorem encodable_copy (dst src : Reg) : Encodable (copy dst src) := by
  unfold copy
  split <;> simp [Instr.HasOwnEncoding]

/-- A loaded immediate can be read back. -/
@[simp]
theorem hasOwnEncoding_loadImm32 (r : Reg) (v : Int32) (sign : Bool) :
    (loadImm32 r v sign).HasOwnEncoding := by
  unfold loadImm32
  split
  · trivial
  · split <;> trivial

/-- A loaded 64-bit immediate can be read back. -/
@[simp]
theorem hasOwnEncoding_loadImm64 (r : Reg) (v : UInt64) : (loadImm64 r v).HasOwnEncoding := by
  unfold loadImm64
  split
  · exact hasOwnEncoding_loadImm32 _ _ _
  · trivial

/-- A combination with an immediate can be read back in every form. -/
@[simp]
theorem hasOwnEncoding_aluWithImm (op : AluOp) (size : OpSize) (r : Reg) (v : Int32) :
    (aluWithImm op size r v).HasOwnEncoding := by
  unfold aluWithImm
  split
  · trivial
  · split <;> trivial

/-- A shift by an immediate can be read back in both forms. -/
@[simp]
theorem hasOwnEncoding_shiftBy (op : ShiftOp) (size : OpSize) (r : Reg) (count : UInt8) :
    (shiftBy op size r count).HasOwnEncoding := by
  unfold shiftBy
  split <;> trivial

/-- A reversal of bytes can be read back. -/
@[simp]
theorem encodable_reverseBytes (r : Reg) (width : Width) : Encodable (reverseBytes r width) := by
  cases width <;> simp [reverseBytes, Instr.HasOwnEncoding]

/-- The code of an operation that computes can be read back. -/
theorem encodable_lower (h : p.lower depth index epilogue operation = .ok fragment)
    (ho : operation.Computes) : Encodable fragment.code := by
  cases operation with
  | alu op size d src =>
    cases h
    cases src with
    | reg src => simp [Lowering.alu, Instr.HasOwnEncoding]
    | imm v => simp [Lowering.alu]
  | shift op size d src =>
    cases h
    cases src with
    | reg src =>
      simp only [Lowering.shift, Lowering.shiftReg]
      by_cases hd : d = .r4 <;> by_cases hs : src = .r4 <;> simp [hd, hs, Instr.HasOwnEncoding]
    | imm v => simp [Lowering.shift]
  | move size d src =>
    cases h
    cases src with
    | reg src => simp [Lowering.move, Instr.HasOwnEncoding]
    | imm v => simp [Lowering.move]
  | negate size d =>
    cases h
    simp [Instr.HasOwnEncoding]
  | multiply size d src =>
    cases h
    cases src with
    | reg src =>
      by_cases h0 : d = .r0 <;> by_cases h3 : d = .r3 <;>
        simp [Lowering.multiply, h0, h3, Instr.HasOwnEncoding]
    | imm v =>
      simp only [Lowering.multiply, encodable_append, encodable_cons, hasOwnEncoding_loadImm32]
      by_cases h0 : d = .r0 <;> by_cases h3 : d = .r3 <;> simp [h0, h3, Instr.HasOwnEncoding]
  | divide part size d src =>
    cases h
    cases src with
    | reg src => simp [Lowering.divide, Instr.HasOwnEncoding]
    | imm v =>
      simp only [Lowering.divide, encodable_append, encodable_cons, hasOwnEncoding_loadImm32]
      simp [Instr.HasOwnEncoding]
  | convert order width d =>
    cases h
    cases order <;> cases width <;> simp [Lowering.convert, Instr.HasOwnEncoding]
  | loadWide d value =>
    cases h
    simp
  | load | probe | storeImm | store | atomic | fetch | jump | branch | exit | call | tailCall =>
    exact ho.elim

end Lowered

end NativeForge
