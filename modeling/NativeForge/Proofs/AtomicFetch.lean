import NativeForge.Proofs.FixedRegisters
import NativeForge.Proofs.FragmentSizes
import NativeForge.Proofs.TrampolineFrames

/-!
# Fetching operations are atomic

A bitwise operation on a cell that returns the old value has no native form. Its code reads the
cell, combines the value locally and exchanges it if the cell still holds what was read; otherwise
it tries again. Other threads may write to the cell at any moment. The code goes through phases, and
what the cell holds decides which phase comes next, so every finished run made one change to the
cell, at one step, from the old value to the combined one. Left alone, the code finishes within
eleven steps.
-/

namespace NativeForge

open X64 Virtual

namespace X64

namespace Memory

variable {m m' m'' : Memory} {a : BitVec 64} {count : Nat}

/-- The memories differ in a cell at most. -/
structure KeepsOutside (m m' : Memory) (a : BitVec 64) (count : Nat) : Prop where
  /-- The bytes outside the cell are the same. -/
  byte_eq : ∀ x, count ≤ (x - a).toNat → m'.byte x = m.byte x
  /-- The same memory may be accessed. -/
  mapped_eq : m'.mapped = m.mapped

/-- Memory is kept where nothing changes. -/
theorem KeepsOutside.refl (m : Memory) (a : BitVec 64) (count : Nat) : m.KeepsOutside m a count :=
  ⟨fun _ _ => rfl, rfl⟩

/-- Changes of a cell add up to a change of the cell. -/
theorem KeepsOutside.trans (h : m.KeepsOutside m' a count) (h' : m'.KeepsOutside m'' a count) :
    m.KeepsOutside m'' a count :=
  ⟨fun x hx => (h'.byte_eq x hx).trans (h.byte_eq x hx), h'.mapped_eq.trans h.mapped_eq⟩

/-- A cell may be accessed as before. -/
theorem KeepsOutside.allows_eq (h : m.KeepsOutside m' a count) (b : BitVec 64) (n : Nat) :
    m'.allows b n = m.allows b n := by
  unfold allows
  rw [h.mapped_eq]

/-- The value of a cell. -/
def held (m : Memory) (a : BitVec 64) (size : OpSize) : BitVec size.bits :=
  BitVec.ofNat size.bits (Bytes.value (m.read a size.width.bytes))

/-- A cell has as many bits as an operand. -/
theorem pow_bytes (size : OpSize) : 256 ^ size.width.bytes = 2 ^ size.bits := by
  cases size <;> rfl

/-- The number in a cell fits an operand. -/
theorem value_read_lt (m : Memory) (a : BitVec 64) (size : OpSize) :
    Bytes.value (m.read a size.width.bytes) < 2 ^ size.bits := by
  have hlt := value_lt (m.read a size.width.bytes)
  rwa [read, List.length_map, List.length_range, pow_bytes] at hlt

/-- A loaded cell is extended with zeros. -/
theorem ofNat_value_read (m : Memory) (a : BitVec 64) (size : OpSize) :
    BitVec.ofNat 64 (Bytes.value (m.read a size.width.bytes)) = (m.held a size).setWidth 64 := by
  apply BitVec.eq_of_toNat_eq
  rw [held, BitVec.toNat_setWidth, BitVec.toNat_ofNat, BitVec.toNat_ofNat,
    Nat.mod_eq_of_lt (m.value_read_lt a size)]

/-- Put a value into a cell. -/
def put (m : Memory) (a : BitVec 64) (size : OpSize) (v : BitVec size.bits) : Memory :=
  m.write a (Bytes.littleEndian size.width.bytes v.toNat)

/-- A cell holds the value that was put into it. -/
theorem held_put (m : Memory) (a : BitVec 64) (size : OpSize) (v : BitVec size.bits) :
    (m.put a size v).held a size = v := by
  have hread : (m.put a size v).read a size.width.bytes =
      Bytes.littleEndian size.width.bytes v.toNat := by
    have hlength := Bytes.length_littleEndian size.width.bytes v.toNat
    have hself := read_write_self (m := m) (a := a) (hlength.symm ▸ bytes_le size.width)
    rwa [hlength] at hself
  have hrange : 1 <<< (8 * size.width.bytes) = 2 ^ size.bits := by cases size <;> rfl
  rw [held, hread, Bytes.value_littleEndian, hrange, Nat.mod_eq_of_lt v.isLt]
  exact BitVec.ofNat_toNat size.bits v |>.trans (BitVec.setWidth_eq v)

/-- Putting a value into a cell keeps the memory outside. -/
theorem keepsOutside_put (m : Memory) (a : BitVec 64) (size : OpSize) (v : BitVec size.bits) :
    m.KeepsOutside (m.put a size v) a size.width.bytes :=
  ⟨fun _ hx => byte_write (by rw [Bytes.length_littleEndian]; exact hx), rfl⟩

end Memory

section Code

variable {bytes : List UInt8} {start k : Nat} {instrs : List Instr} {i : Instr} {s t : State}

/-- The size of the code up to an instruction and with it. -/
theorem codeSize_take_succ (h : instrs[k]? = some i) :
    codeSize (instrs.take (k + 1)) = codeSize (instrs.take k) + i.size := by
  rw [List.take_add_one, h, codeSize_append]
  rfl

/-- Code before an instruction is shorter than the code. -/
theorem codeSize_take_lt (h : k < instrs.length) : codeSize (instrs.take k) < codeSize instrs := by
  have hne : instrs.drop k ≠ [] := by
    rw [ne_eq, List.drop_eq_nil_iff]
    omega
  obtain ⟨i, rest, hdrop⟩ := List.exists_cons_of_ne_nil hne
  have hsplit := congrArg codeSize (List.take_append_drop k instrs)
  rw [codeSize_append, hdrop, codeSize_cons] at hsplit
  have hsize := (size_bounds i).1
  have hleast : 1 ≤ i.leastSize := by
    unfold Instr.leastSize
    split <;> decide
  omega

/-- An instruction of the code is fetched at its place. -/
theorem HasCode.fetch_take (h : HasCode bytes start instrs) (he : Encodable instrs)
    (hk : instrs[k]? = some i) : X64.fetch bytes (start + codeSize (instrs.take k)) =
      some (i, start + codeSize (instrs.take (k + 1))) := by
  obtain ⟨hlt, hi⟩ := List.getElem?_eq_some_iff.mp hk
  rw [← List.take_append_drop k instrs] at h
  have hright := h.right
  rw [List.drop_eq_getElem_cons hlt, hi] at hright
  rw [hright.fetch_eq (he i (List.mem_of_getElem? hk)), codeSize_take_succ hk, Nat.add_assoc]

/-- The processor goes on behind an instruction of the code. -/
theorem HasCode.step_next (h : HasCode bytes start instrs) (he : Encodable instrs)
    (hk : instrs[k]? = some i) (hx : i.exec s = some (t, .next)) :
    step bytes (start + codeSize (instrs.take k)) s =
      some (start + codeSize (instrs.take (k + 1)), t) := by
  rw [step, h.fetch_take he hk]
  simp [hx]

/-- The processor jumps to another instruction of the code. -/
theorem HasCode.step_jump (h : HasCode bytes start instrs) (he : Encodable instrs)
    (hk : instrs[k]? = some i) {distance : Int} (hx : i.exec s = some (t, .jump distance)) {j : Nat}
    (hj : (codeSize (instrs.take (k + 1)) : Int) + distance = codeSize (instrs.take j)) :
    step bytes (start + codeSize (instrs.take k)) s =
      some (start + codeSize (instrs.take j), t) := by
  have htarget : ((start + codeSize (instrs.take (k + 1)) : Nat) : Int) + distance =
      (start + codeSize (instrs.take j) : Nat) := by omega
  rw [step, h.fetch_take he hk]
  simp only [Option.bind_eq_bind, Option.bind_some, hx, htarget]
  rw [if_pos (by omega)]
  rfl

/-- The processor faults at an instruction of the code. -/
theorem HasCode.step_none (h : HasCode bytes start instrs) (he : Encodable instrs)
    (hk : instrs[k]? = some i) (hx : i.exec s = none) :
    step bytes (start + codeSize (instrs.take k)) s = none := by
  rw [step, h.fetch_take he hk]
  simp [hx]

end Code

/-- A run of one thread in a piece of code up to an offset, while other threads write to a cell at
any moment. The memories before and after every step of the thread are recorded in order. -/
inductive Interleaved (code : List UInt8) (stop : Nat) (cell : BitVec 64) (count : Nat)
    (start : Nat) (s : State) : List (Memory × Memory) → Nat → State → Prop
  | start : Interleaved code stop cell count start s [] start s
  | own {trace : List (Memory × Memory)} {offset next : Nat} {t u : State}
      (h : Interleaved code stop cell count start s trace offset t) (hstop : offset ≠ stop)
      (hstep : step code offset t = some (next, u)) :
      Interleaved code stop cell count start s (trace ++ [(t.mem, u.mem)]) next u
  | other {trace : List (Memory × Memory)} {offset : Nat} {t : State} {m : Memory}
      (h : Interleaved code stop cell count start s trace offset t)
      (hm : t.mem.KeepsOutside m cell count) :
      Interleaved code stop cell count start s trace offset (t.setMem m)

/-- No step changed memory. -/
def Quiet (trace : List (Memory × Memory)) : Prop := ∀ p ∈ trace, p.2 = p.1

/-- Exactly one step changed memory: it changed a cell from one value to another, and nothing
else. -/
def ChangesOnce (trace : List (Memory × Memory)) (cell : BitVec 64) (size : OpSize)
    (v w : BitVec size.bits) : Prop :=
  ∃ front m m' back, trace = front ++ (m, m') :: back ∧ Quiet front ∧ Quiet back ∧
    m.held cell size = v ∧ m'.held cell size = w ∧ m.KeepsOutside m' cell size.width.bytes

/-- No step changes nothing. -/
theorem quiet_nil : Quiet [] := fun _ h => nomatch h

/-- A step that keeps memory is quiet. -/
theorem Quiet.snoc {trace : List (Memory × Memory)} (h : Quiet trace) (m : Memory) :
    Quiet (trace ++ [(m, m)]) := by
  intro p hp
  rcases List.mem_append.mp hp with hp | hp
  · exact h p hp
  · rw [List.mem_singleton.mp hp]

/-- A step that keeps memory leaves the one change the only one. -/
theorem ChangesOnce.snoc {trace : List (Memory × Memory)} {cell : BitVec 64} {size : OpSize}
    {v w : BitVec size.bits} (h : ChangesOnce trace cell size v w) (m : Memory) :
    ChangesOnce (trace ++ [(m, m)]) cell size v w := by
  obtain ⟨front, m1, m2, back, rfl, hfront, hback, hrest⟩ := h
  exact ⟨front, m1, m2, back ++ [(m, m)], by simp, hfront, hback.snoc m, hrest⟩

end X64

/-- The phases of a fetching operation. -/
inductive FetchPhase (size : OpSize) where
  /-- Nothing was done. -/
  | entry
  /-- The accumulator is saved. -/
  | ready
  /-- The value of the cell is in the accumulator. -/
  | loaded (v : BitVec size.bits)
  /-- The value is in the scratch register, too. -/
  | copied (v : BitVec size.bits)
  /-- The value in the scratch register is combined with the source. -/
  | combined (v : BitVec size.bits)
  /-- Another thread intervened. -/
  | refused
  /-- The cell was changed. -/
  | exchanged (v : BitVec size.bits)
  /-- The loop is left. -/
  | taken (v : BitVec size.bits)
  /-- The old value is in the register that stands for the source. -/
  | handed (v : BitVec size.bits)
  /-- The accumulator is restored. -/
  | finished (v : BitVec size.bits)

namespace FetchPhase

variable {size : OpSize}

/-- The number of instructions before the one that is next. -/
def position : FetchPhase size → Nat
  | .entry => 0
  | .ready => 1
  | .loaded _ => 2
  | .copied _ => 3
  | .combined _ => 4
  | .refused | .exchanged _ => 5
  | .taken _ => 6
  | .handed _ => 7
  | .finished _ => 8

/-- The next phase, for the value that the cell holds. -/
def next (c : BitVec size.bits) : FetchPhase size → FetchPhase size
  | .entry => .ready
  | .ready => .loaded c
  | .loaded v => .copied v
  | .copied v => .combined v
  | .combined v => if v = c then .exchanged v else .refused
  | .refused => .ready
  | .exchanged v => .taken v
  | .taken v => .handed v
  | .handed v | .finished v => .finished v

/-- The number of steps to the end, if the cell keeps its value until it is exchanged. -/
def left (c : BitVec size.bits) : FetchPhase size → Nat
  | .entry | .refused => 8
  | .ready => 7
  | .loaded v => if v = c then 6 else 11
  | .copied v => if v = c then 5 else 10
  | .combined v => if v = c then 4 else 9
  | .exchanged _ => 3
  | .taken _ => 2
  | .handed _ => 1
  | .finished _ => 0

/-- No phase is behind the last instruction. -/
theorem position_le (φ : FetchPhase size) : φ.position ≤ 8 := by
  cases φ <;> simp [position]

/-- No phase is further from the end than eleven steps. -/
theorem left_le (c : BitVec size.bits) (φ : FetchPhase size) : φ.left c ≤ 11 := by
  cases φ with
  | loaded v | copied v | combined v =>
    simp only [left]
    split <;> omega
  | entry | ready | refused | exchanged | taken | handed | finished => simp [left]

/-- The last phase is the only one behind the last instruction. -/
theorem eq_finished {φ : FetchPhase size} (h : φ.position = 8) : ∃ v, φ = .finished v := by
  cases φ with
  | finished v => exact ⟨v, rfl⟩
  | entry | ready | loaded | copied | combined | refused | exchanged | taken | handed => cases h

/-- No step is left at the end only. -/
theorem position_of_left_eq_zero {c : BitVec size.bits} {φ : FetchPhase size} (h : φ.left c = 0) :
    φ.position = 8 := by
  cases φ with
  | loaded v | copied v | combined v =>
    simp only [left] at h
    split at h <;> omega
  | finished v => rfl
  | entry | refused | ready | exchanged | taken | handed => simp [left] at h

/-- Every step before the end brings the end nearer, as long as the cell keeps its value. -/
theorem left_next (c : BitVec size.bits) {φ : FetchPhase size} (h : φ.position ≠ 8) :
    (φ.next c).left c + 1 = φ.left c := by
  cases φ with
  | ready => simp [next, left]
  | combined v =>
    by_cases hv : v = c
    · simp [next, left, hv]
    · simp [next, left, hv]
  | loaded v | copied v =>
    simp only [next, left]
    split <;> rfl
  | finished v => exact absurd rfl h
  | entry | refused | exchanged | taken | handed => rfl

end FetchPhase

/-- The address of the cell that a slot works on. -/
def fetchCell (s : State) (base : VReg) (off : Int16) : BitVec 64 :=
  s.address base.native off.toInt

section Fetch

variable {op : AluOp} {size : OpSize} {base src : VReg} {off : Int16}

/-- The code of a fetching operation can be read back. -/
theorem encodable_fetchCode : Encodable (fetchCode op size base src off) := by
  have hcode : (Lowering.besideAccumulator base).code ≠ 4 := by
    unfold Lowering.besideAccumulator
    cases base <;> decide
  simp [fetchCode, Instr.HasOwnEncoding, hcode]

/-- The branch back leads to the attempt. -/
theorem retry_eq (op : AluOp) (size : OpSize) (base src : VReg) (off : Int16) :
    (codeSize ((fetchCode op size base src off).take 6) : Int) +
        (retryField op size base src off).value =
      codeSize ((fetchCode op size base src off).take 1) := by
  have hfits := fitsInt8_iff.mp (fitsInt8_attempt op size base src off)
  rw [retryField, SignedField.value, Int8.toInt_ofInt_of_le (by omega) (by omega)]
  have htake : codeSize ((fetchCode op size base src off).take 6) =
      codeSize ((fetchCode op size base src off).take 1) +
        (codeSize (Lowering.fetchAttempt op size base src off) + 2) := by
    simp only [fetchCode, retryField, Lowering.fetchAttempt, List.take, codeSize_cons, codeSize_nil,
      size_jcc_byte]
    rw [show VReg.aux.native = .r11 from rfl]
    omega
  omega

/-- The registers while attempts are made: the accumulator waits in its place, and the others are
those at entry. -/
structure InLoop (s : State) (regs : Reg → BitVec 64) : Prop where
  /-- The accumulator is saved. -/
  saved : regs .r10 = s.regs .rax
  /-- The other registers are kept. -/
  regs_eq : ∀ r, r ≠ .rax → r ≠ .r10 → r ≠ .r11 → regs r = s.regs r

/-- An operand is found beside the accumulator. -/
theorem InLoop.beside_eq {s : State} {regs : Reg → BitVec 64} (h : InLoop s regs) {r : VReg}
    (hr : r.IsGeneral) : regs (Lowering.besideAccumulator r) = s.regs r.native := by
  unfold Lowering.besideAccumulator
  split
  · rename_i h0
    rw [h0]
    exact h.saved
  · rename_i h0
    have h10 : r.native ≠ .r10 :=
      fun h => hr.2.1 (VReg.native_inj.mp (h : r.native = VReg.ax.native))
    exact h.regs_eq _ (fun h => h0 (VReg.native_inj.mp h)) h10 hr.native_ne.2.2

/-- The registers while attempts are made stay so if only the accumulator and the scratch register
change. -/
theorem InLoop.congr {s : State} {regs regs' : Reg → BitVec 64} (h : InLoop s regs)
    (heq : ∀ r, r ≠ .rax → r ≠ .r11 → regs' r = regs r) : InLoop s regs' :=
  ⟨(heq .r10 (by decide) (by decide)).trans h.saved,
    fun r h1 h2 h3 => (heq r h1 h3).trans (h.regs_eq r h1 h2 h3)⟩

/-- What holds in a phase, of the steps so far, the registers and the flags. -/
def FetchPhase.Holds (op : AluOp) (base src : VReg) (off : Int16) (s : State)
    (trace : List (Memory × Memory)) (regs : Reg → BitVec 64) (flags : Option Flags) :
    FetchPhase size → Prop
  | .entry => regs = s.regs ∧ Quiet trace
  | .ready => InLoop s regs ∧ Quiet trace
  | .loaded v => InLoop s regs ∧ regs .rax = v.setWidth 64 ∧ Quiet trace
  | .copied v =>
    InLoop s regs ∧ regs .rax = v.setWidth 64 ∧ regs .r11 = v.setWidth 64 ∧ Quiet trace
  | .combined v => InLoop s regs ∧ regs .rax = v.setWidth 64 ∧
      regs .r11 = (op.apply v (low size (s.regs src.native))).setWidth 64 ∧ Quiet trace
  | .refused => InLoop s regs ∧ (∃ f, flags = some f ∧ f.zero = false) ∧ Quiet trace
  | .exchanged v => InLoop s regs ∧ regs .rax = v.setWidth 64 ∧
      (∃ f, flags = some f ∧ f.zero = true) ∧
      ChangesOnce trace (fetchCell s base off) size v (op.apply v (low size (s.regs src.native)))
  | .taken v => InLoop s regs ∧ regs .rax = v.setWidth 64 ∧
      ChangesOnce trace (fetchCell s base off) size v (op.apply v (low size (s.regs src.native)))
  | .handed v => regs (Lowering.besideAccumulator src) = v.setWidth 64 ∧
      (src ≠ .r0 → regs .r10 = s.regs .rax) ∧
      (∀ r, r ≠ src.native → r ≠ .rax → r ≠ .r10 → r ≠ .r11 → regs r = s.regs r) ∧
      ChangesOnce trace (fetchCell s base off) size v (op.apply v (low size (s.regs src.native)))
  | .finished v => regs src.native = v.setWidth 64 ∧
      (∀ r, r ≠ src.native → r ≠ .r10 → r ≠ .r11 → regs r = s.regs r) ∧
      ChangesOnce trace (fetchCell s base off) size v (op.apply v (low size (s.regs src.native)))

/-- The offset of a phase, for code at a given one. -/
def FetchPhase.offset (op : AluOp) (base src : VReg) (off : Int16) (start : Nat)
    (φ : FetchPhase size) : Nat :=
  start + codeSize ((fetchCode op size base src off).take φ.position)

/-- A run of one thread through the code of a fetching operation, while others write to its cell. -/
abbrev FetchRun (op : AluOp) (size : OpSize) (base src : VReg) (off : Int16) (bytes : List UInt8)
    (start : Nat) (s : State) : List (Memory × Memory) → Nat → State → Prop :=
  Interleaved bytes (start + codeSize (fetchCode op size base src off)) (fetchCell s base off)
    size.width.bytes start s

section Steps

variable {s t : State}

/-- The address of the cell is found beside the accumulator. -/
theorem InLoop.address_eq (h : InLoop s t.regs) (hbase : base.IsGeneral) :
    t.address (Lowering.besideAccumulator base) (Lowering.displacement off).value =
      fetchCell s base off := by
  rw [State.address, h.beside_eq hbase, Lowering.displacement, value_shortest, Int16.toInt_toInt32]
  rfl

/-- The load of an attempt reads the cell, if it may be accessed. -/
theorem exec_load_cell (h : InLoop s t.regs) (hbase : base.IsGeneral) :
    (Instr.load size.width .rax (Lowering.besideAccumulator base) (Lowering.displacement off)).exec t =
      if t.mem.allows (fetchCell s base off) size.width.bytes then
        some (t.setReg .rax ((t.mem.held (fetchCell s base off) size).setWidth 64), .next)
      else none := by
  rw [Instr.exec, h.address_eq hbase, State.load]
  split
  · rw [← Memory.ofNat_value_read]
    rfl
  · rfl

/-- The exchange of an attempt changes the cell if it still holds what was read, and reads it again
otherwise. -/
theorem exec_exchange (h : InLoop s t.regs) (hbase : base.IsGeneral) :
    (Instr.locked .compareExchange size (Lowering.besideAccumulator base) .r11
        (Lowering.displacement off)).exec t =
      if t.mem.allows (fetchCell s base off) size.width.bytes then
        let c := t.mem.held (fetchCell s base off) size
        let u := t.setFlags (some (.ofSub (low size (t.regs .rax)) c))
        if low size (t.regs .rax) = c then
          some (u.setMem (t.mem.put (fetchCell s base off) size (low size (t.regs .r11))), .next)
        else some (u.put size .rax c, .next)
      else none := by
  rw [Instr.exec, h.address_eq hbase, State.locked, State.load]
  by_cases hallow : t.mem.allows (fetchCell s base off) size.width.bytes = true
  · rw [if_pos hallow, if_pos hallow]
    dsimp only [Option.bind_eq_bind, Option.bind_some]
    change (if low size (t.regs .rax) = t.mem.held (fetchCell s base off) size then
      (t.setFlags _).store _ _ _ else some (State.put _ _ _ _)).bind State.next = _
    split
    · rw [State.store, State.mem_setFlags, if_pos hallow]
      rfl
    · rfl
  · rw [if_neg hallow, if_neg hallow]
    rfl

/-- What holds behind a step in a phase: the next phase is reached and memory is kept outside the
cell. The cell changes only where it is exchanged. -/
structure Advances (op : AluOp) (base src : VReg) (off : Int16) (s t : State)
    (trace : List (Memory × Memory)) (φ : FetchPhase size) (u : State) : Prop where
  /-- The next phase holds. -/
  holds : (φ.next (t.mem.held (fetchCell s base off) size)).Holds op base src off s
    (trace ++ [(t.mem, u.mem)]) u.regs u.flags
  /-- Memory is kept outside the cell. -/
  memory : t.mem.KeepsOutside u.mem (fetchCell s base off) size.width.bytes
  /-- Memory is kept, unless the cell was exchanged. -/
  mem_eq : u.mem = t.mem ∨ ∃ v, φ.next (t.mem.held (fetchCell s base off) size) = .exchanged v

/-- A step that keeps memory advances if the next phase holds. -/
theorem Advances.of_mem_eq {trace : List (Memory × Memory)} {φ : FetchPhase size} {u : State}
    (hm : u.mem = t.mem) (h : (φ.next (t.mem.held (fetchCell s base off) size)).Holds op base src off
      s (trace ++ [(t.mem, t.mem)]) u.regs u.flags) : Advances op base src off s t trace φ u :=
  ⟨by rw [hm]; exact h, by rw [hm]; exact .refl _ _ _, .inl hm⟩

variable {bytes : List UInt8} {start : Nat} {trace : List (Memory × Memory)}

/-- An attempt whose exchange may access the cell either changes it or is refused. -/
theorem advances_exchange {v : BitVec size.bits} (hbase : base.IsGeneral)
    (hφ : (FetchPhase.combined v).Holds op base src off s trace t.regs t.flags)
    (hallow : t.mem.allows (fetchCell s base off) size.width.bytes = true) :
    ∃ u, (Instr.locked .compareExchange size (Lowering.besideAccumulator base) .r11
        (Lowering.displacement off)).exec t = some (u, .next) ∧
      Advances op base src off s t trace (.combined v) u := by
  obtain ⟨hloop, hrax, hr11, hquiet⟩ := hφ
  have hv : low size (t.regs .rax) = v := by rw [hrax, low_setWidth]
  have hw : low size (t.regs .r11) = op.apply v (low size (s.regs src.native)) := by
    rw [hr11, low_setWidth]
  rw [exec_exchange hloop hbase, if_pos hallow]
  dsimp only
  rw [hv, hw]
  by_cases hc : v = t.mem.held (fetchCell s base off) size
  · rw [if_pos hc]
    refine ⟨_, rfl, ?_, Memory.keepsOutside_put _ _ _ _, .inr ⟨v, if_pos hc⟩⟩
    rw [FetchPhase.next, if_pos hc]
    refine ⟨hloop, hrax, ⟨_, rfl, ?_⟩, trace, t.mem, _, [], rfl, hquiet, quiet_nil, hc.symm,
      Memory.held_put _ _ _ _, Memory.keepsOutside_put _ _ _ _⟩
    rw [Flags.zero_ofSub, ← hc, beq_self_eq_true]
  · rw [if_neg hc]
    refine ⟨_, rfl, .of_mem_eq rfl ?_⟩
    rw [FetchPhase.next, if_neg hc]
    refine ⟨hloop.congr fun r h1 _ => by simp [h1], ⟨_, rfl, ?_⟩, hquiet.snoc _⟩
    rw [Flags.zero_ofSub]
    exact beq_eq_false_iff_ne.mpr hc

/-- The processor goes from a phase to the next one. -/
def FetchPhase.GoesOn (op : AluOp) (base src : VReg) (off : Int16) (bytes : List UInt8) (start : Nat)
    (s t : State) (trace : List (Memory × Memory)) (φ : FetchPhase size) : Prop :=
  ∃ u, step bytes (φ.offset op base src off start) t = some
      ((φ.next (t.mem.held (fetchCell s base off) size)).offset op base src off start, u) ∧
    Advances op base src off s t trace φ u

section Phases

variable {v : BitVec size.bits} (hcode : HasCode bytes start (fetchCode op size base src off))

include hcode

/-- At the start the accumulator is saved. -/
theorem goesOn_entry
    (hφ : (FetchPhase.entry : FetchPhase size).Holds op base src off s trace t.regs t.flags) :
    (FetchPhase.entry : FetchPhase size).GoesOn op base src off bytes start s t trace := by
  obtain ⟨hregs, hquiet⟩ := hφ
  have hexec : (Instr.mov .wide .r10 .rax).exec t =
      some (t.put .wide .r10 (t.regs .rax), .next) := by
    rw [Instr.exec, State.value_wide]
    rfl
  refine ⟨_, hcode.step_next encodable_fetchCode rfl hexec,
    .of_mem_eq rfl ⟨⟨?_, ?_⟩, hquiet.snoc _⟩⟩
  · simp [hregs]
  · intro r _ h2 _
    simp [h2, hregs]

/-- An attempt starts by reading the cell, if it may be accessed. -/
theorem goesOn_ready (hbase : base.IsGeneral)
    (hφ : (FetchPhase.ready : FetchPhase size).Holds op base src off s trace t.regs t.flags)
    (hallow : t.mem.allows (fetchCell s base off) size.width.bytes = true) :
    (FetchPhase.ready : FetchPhase size).GoesOn op base src off bytes start s t trace := by
  obtain ⟨hloop, hquiet⟩ := hφ
  have hexec := (exec_load_cell hloop hbase).trans (if_pos hallow)
  refine ⟨_, hcode.step_next encodable_fetchCode rfl hexec,
    .of_mem_eq rfl ⟨?_, ?_, hquiet.snoc _⟩⟩
  · exact hloop.congr fun r h1 _ => by simp [h1]
  · simp

/-- What was read is copied. -/
theorem goesOn_loaded
    (hφ : (FetchPhase.loaded v).Holds op base src off s trace t.regs t.flags) :
    (FetchPhase.loaded v).GoesOn op base src off bytes start s t trace := by
  obtain ⟨hloop, hrax, hquiet⟩ := hφ
  refine ⟨_, hcode.step_next encodable_fetchCode rfl rfl,
    .of_mem_eq rfl ⟨?_, ?_, ?_, hquiet.snoc _⟩⟩
  · exact hloop.congr fun r _ h2 => by simp [h2]
  · simpa using hrax
  · simp [State.value_eq_low, hrax, low_setWidth]

/-- The copy is combined with the operand. -/
theorem goesOn_copied (hsrc : src.IsGeneral)
    (hφ : (FetchPhase.copied v).Holds op base src off s trace t.regs t.flags) :
    (FetchPhase.copied v).GoesOn op base src off bytes start s t trace := by
  obtain ⟨hloop, hrax, hr11, hquiet⟩ := hφ
  refine ⟨_, hcode.step_next encodable_fetchCode rfl rfl,
    .of_mem_eq rfl ⟨?_, ?_, ?_, hquiet.snoc _⟩⟩
  · exact hloop.congr fun r _ h2 => by simp [State.alu, h2]
  · simpa [State.alu] using hrax
  · simp [State.alu, State.value_eq_low, hr11, low_setWidth, hloop.beside_eq hsrc]

/-- The exchange is tried, if the cell may be accessed. -/
theorem goesOn_combined (hbase : base.IsGeneral)
    (hφ : (FetchPhase.combined v).Holds op base src off s trace t.regs t.flags)
    (hallow : t.mem.allows (fetchCell s base off) size.width.bytes = true) :
    (FetchPhase.combined v).GoesOn op base src off bytes start s t trace := by
  obtain ⟨u, hexec, hadvances⟩ := advances_exchange hbase hφ hallow
  refine ⟨u, (hcode.step_next encodable_fetchCode rfl hexec).trans ?_, hadvances⟩
  rw [FetchPhase.next]
  split <;> rfl

/-- A refused attempt is made again. -/
theorem goesOn_refused
    (hφ : (FetchPhase.refused : FetchPhase size).Holds op base src off s trace t.regs t.flags) :
    (FetchPhase.refused : FetchPhase size).GoesOn op base src off bytes start s t trace := by
  obtain ⟨hloop, ⟨f, hf, hzero⟩, hquiet⟩ := hφ
  have hexec : (Instr.jcc .notEqual (retryField op size base src off)).exec t =
      some (t, .jump (retryField op size base src off).value) := by
    rw [Instr.exec, hf, Option.bind_some, Cond.holds, hzero]
    rfl
  exact ⟨t, hcode.step_jump encodable_fetchCode rfl hexec (retry_eq op size base src off),
    .of_mem_eq rfl ⟨hloop, hquiet.snoc _⟩⟩

/-- Behind an exchange the branch is not taken. -/
theorem goesOn_exchanged
    (hφ : (FetchPhase.exchanged v).Holds op base src off s trace t.regs t.flags) :
    (FetchPhase.exchanged v).GoesOn op base src off bytes start s t trace := by
  obtain ⟨hloop, hrax, ⟨f, hf, hzero⟩, honce⟩ := hφ
  have hexec : (Instr.jcc .notEqual (retryField op size base src off)).exec t =
      some (t, .next) := by
    rw [Instr.exec, hf, Option.bind_some, Cond.holds, hzero]
    rfl
  exact ⟨t, hcode.step_next encodable_fetchCode rfl hexec,
    .of_mem_eq rfl ⟨hloop, hrax, honce.snoc _⟩⟩

/-- The old value is handed over, beside the accumulator. -/
theorem goesOn_taken (hsrc : src.IsGeneral)
    (hφ : (FetchPhase.taken v).Holds op base src off s trace t.regs t.flags) :
    (FetchPhase.taken v).GoesOn op base src off bytes start s t trace := by
  obtain ⟨hloop, hrax, honce⟩ := hφ
  refine ⟨_, hcode.step_next encodable_fetchCode rfl rfl,
    .of_mem_eq rfl ⟨?_, ?_, ?_, honce.snoc _⟩⟩
  · simp [State.value_eq_low, hrax, low_setWidth]
  · intro h0
    have h10 : Reg.r10 ≠ src.native := fun h => hsrc.2.1 (VReg.native_inj.mp h.symm)
    simpa [Lowering.besideAccumulator, h0, h10] using hloop.saved
  · intro r h1 h2 h3 h4
    have hbeside : r ≠ Lowering.besideAccumulator src := by
      unfold Lowering.besideAccumulator
      split
      · exact h3
      · exact h1
    simpa [hbeside] using hloop.regs_eq r h2 h3 h4

/-- The accumulator is restored. The old value is in the source register, or it goes there with the
accumulator. -/
theorem goesOn_handed
    (hφ : (FetchPhase.handed v).Holds op base src off s trace t.regs t.flags) :
    (FetchPhase.handed v).GoesOn op base src off bytes start s t trace := by
  obtain ⟨hbeside, hsaved, hregs, honce⟩ := hφ
  have hexec : (Instr.mov .wide .rax .r10).exec t =
      some (t.put .wide .rax (t.regs .r10), .next) := by
    rw [Instr.exec, State.value_wide]
    rfl
  refine ⟨_, hcode.step_next encodable_fetchCode rfl hexec,
    .of_mem_eq rfl ⟨?_, ?_, honce.snoc _⟩⟩
  · unfold Lowering.besideAccumulator at hbeside
    by_cases h0 : src = .r0
    · rw [if_pos h0] at hbeside
      rw [h0]
      simpa [VReg.native] using hbeside
    · rw [if_neg h0] at hbeside
      have hrax : src.native ≠ .rax := fun h => h0 (VReg.native_inj.mp h)
      simpa [hrax] using hbeside
  · intro r h1 h2 h3
    by_cases hrax : r = .rax
    · have h0 : src ≠ .r0 := by
        rintro rfl
        exact h1 hrax
      simp [hrax, hsaved h0]
    · simpa [hrax] using hregs r h1 hrax h2 h3

/-- The processor goes from every phase before the last one to the next phase, unless the cell may
not be accessed. -/
theorem advances_of_holds (hbase : base.IsGeneral) (hsrc : src.IsGeneral) {φ : FetchPhase size}
    (hφ : φ.Holds op base src off s trace t.regs t.flags) (hne : φ.position ≠ 8) :
    (t.mem.allows (fetchCell s base off) size.width.bytes = false ∧
      step bytes (φ.offset op base src off start) t = none) ∨
    φ.GoesOn op base src off bytes start s t trace := by
  cases φ with
  | entry => exact .inr (goesOn_entry hcode hφ)
  | ready =>
    cases hallow : t.mem.allows (fetchCell s base off) size.width.bytes with
    | true => exact .inr (goesOn_ready hcode hbase hφ hallow)
    | false =>
      have hexec := (exec_load_cell hφ.1 hbase).trans (if_neg (by rw [hallow]; decide))
      exact .inl ⟨rfl, hcode.step_none encodable_fetchCode rfl hexec⟩
  | loaded v => exact .inr (goesOn_loaded hcode hφ)
  | copied v => exact .inr (goesOn_copied hcode hsrc hφ)
  | combined v =>
    cases hallow : t.mem.allows (fetchCell s base off) size.width.bytes with
    | true => exact .inr (goesOn_combined hcode hbase hφ hallow)
    | false =>
      have hexec := (exec_exchange hφ.1 hbase).trans (if_neg (by rw [hallow]; decide))
      exact .inl ⟨rfl, hcode.step_none encodable_fetchCode rfl hexec⟩
  | refused => exact .inr (goesOn_refused hcode hφ)
  | exchanged v => exact .inr (goesOn_exchanged hcode hφ)
  | taken v => exact .inr (goesOn_taken hcode hsrc hφ)
  | handed v => exact .inr (goesOn_handed hcode hφ)
  | finished v => exact absurd rfl hne

end Phases

/-- Every point of an interleaved run is in a phase. -/
theorem holds_of_interleaved (hcode : HasCode bytes start (fetchCode op size base src off))
    (hbase : base.IsGeneral) (hsrc : src.IsGeneral) {offset : Nat}
    (h : FetchRun op size base src off bytes start s trace offset t) :
    ∃ φ : FetchPhase size, offset = φ.offset op base src off start ∧
      φ.Holds op base src off s trace t.regs t.flags ∧
      s.mem.KeepsOutside t.mem (fetchCell s base off) size.width.bytes := by
  -- the induction is on the run; writes of others change memory, on which no phase depends
  induction h with
  | start => exact ⟨.entry, rfl, ⟨rfl, quiet_nil⟩, .refl _ _ _⟩
  | own h hstop hstep ih =>
    obtain ⟨φ, rfl, hφ, hm⟩ := ih
    have hne : φ.position ≠ 8 := by
      intro h8
      rw [FetchPhase.offset, h8] at hstop
      exact hstop rfl
    rcases advances_of_holds hcode hbase hsrc hφ hne with ⟨_, hnone⟩ | ⟨u, hu, hadvances⟩
    · rw [hstep] at hnone
      cases hnone
    · rw [hstep] at hu
      cases hu
      exact ⟨_, rfl, hadvances.holds, hm.trans hadvances.memory⟩
  | other h hm ih =>
    obtain ⟨φ, hoffset, hφ, hkept⟩ := ih
    exact ⟨φ, hoffset, hφ, hkept.trans hm⟩

/-- Only the last phase is at the end of the code. -/
theorem offset_ne_stop {φ : FetchPhase size} (h : φ.position ≠ 8) :
    φ.offset op base src off start ≠ start + codeSize (fetchCode op size base src off) := by
  have hle := φ.position_le
  have hsize : codeSize ((fetchCode op size base src off).take φ.position) <
      codeSize (fetchCode op size base src off) :=
    codeSize_take_lt (show φ.position < 8 by omega)
  unfold FetchPhase.offset
  omega

/-- An interleaved run goes on with a step of the thread, before the last phase. -/
theorem exists_own_step (hcode : HasCode bytes start (fetchCode op size base src off))
    (hbase : base.IsGeneral) (hsrc : src.IsGeneral) {φ : FetchPhase size}
    (h : FetchRun op size base src off bytes start s trace (φ.offset op base src off start) t)
    (hφ : φ.Holds op base src off s trace t.regs t.flags) (hne : φ.position ≠ 8)
    (hallow : t.mem.allows (fetchCell s base off) size.width.bytes = true) :
    ∃ u, step bytes (φ.offset op base src off start) t = some
        ((φ.next (t.mem.held (fetchCell s base off) size)).offset op base src off start, u) ∧
      FetchRun op size base src off bytes start s (trace ++ [(t.mem, u.mem)])
        ((φ.next (t.mem.held (fetchCell s base off) size)).offset op base src off start) u ∧
      Advances op base src off s t trace φ u := by
  rcases advances_of_holds hcode hbase hsrc hφ hne with ⟨hdeny, _⟩ | ⟨u, hu, hadvances⟩
  · rw [hallow] at hdeny
    cases hdeny
  · exact ⟨u, hu, .own h (offset_ne_stop hne) hu, hadvances⟩

/-- Left alone in a phase, the thread gets to the end in the steps that are left. -/
theorem run_of_holds (hcode : HasCode bytes start (fetchCode op size base src off))
    (hbase : base.IsGeneral) (hsrc : src.IsGeneral) {φ : FetchPhase size}
    (h : FetchRun op size base src off bytes start s trace (φ.offset op base src off start) t)
    (hφ : φ.Holds op base src off s trace t.regs t.flags)
    (hallow : t.mem.allows (fetchCell s base off) size.width.bytes = true) :
    ∃ back u, back.length = φ.left (t.mem.held (fetchCell s base off) size) ∧
      run bytes back.length (φ.offset op base src off start) t =
        some (start + codeSize (fetchCode op size base src off), u) ∧
      FetchRun op size base src off bytes start s (trace ++ back)
        (start + codeSize (fetchCode op size base src off)) u := by
  generalize hn : φ.left (t.mem.held (fetchCell s base off) size) = n
  induction n generalizing φ t trace with
  | zero =>
    rw [FetchPhase.offset, FetchPhase.position_of_left_eq_zero hn] at h ⊢
    exact ⟨[], t, rfl, rfl, by rw [List.append_nil]; exact h⟩
  | succ n ih =>
    have hne : φ.position ≠ 8 := by
      intro h8
      obtain ⟨v, rfl⟩ := FetchPhase.eq_finished h8
      cases hn
    obtain ⟨u, hu, hown, hadvances⟩ := exists_own_step hcode hbase hsrc h hφ hne hallow
    have hnext := FetchPhase.left_next (t.mem.held (fetchCell s base off) size) hne
    have hleft : (φ.next (t.mem.held (fetchCell s base off) size)).left
        (u.mem.held (fetchCell s base off) size) = n := by
      rcases hadvances.mem_eq with hm | ⟨v, hv⟩
      · rw [hm]
        omega
      · -- behind the exchange the value of the cell does not matter any more
        rw [hv] at hnext ⊢
        change 3 + 1 = _ at hnext
        change 3 = n
        omega
    obtain ⟨back, w, hlength, hrun, hend⟩ :=
      ih hown hadvances.holds (by rw [hadvances.memory.allows_eq]; exact hallow) hleft
    refine ⟨(t.mem, u.mem) :: back, w, by rw [List.length_cons, hlength], ?_, ?_⟩
    · rw [List.length_cons, run, hu, Option.bind_some]
      exact hrun
    · rw [List.append_cons]
      exact hend

/-- A step that does not exchange keeps memory. -/
theorem exists_quiet_step (hcode : HasCode bytes start (fetchCode op size base src off))
    (hbase : base.IsGeneral) (hsrc : src.IsGeneral) {φ : FetchPhase size}
    (h : FetchRun op size base src off bytes start s trace (φ.offset op base src off start) t)
    (hφ : φ.Holds op base src off s trace t.regs t.flags) (hne : φ.position < 4)
    (hallow : s.mem.allows (fetchCell s base off) size.width.bytes = true) (hm : t.mem = s.mem) :
    ∃ u, FetchRun op size base src off bytes start s (trace ++ [(s.mem, s.mem)])
        ((φ.next (s.mem.held (fetchCell s base off) size)).offset op base src off start) u ∧
      (φ.next (s.mem.held (fetchCell s base off) size)).Holds op base src off s
        (trace ++ [(s.mem, s.mem)]) u.regs u.flags ∧ u.mem = s.mem := by
  obtain ⟨u, _, hrun, hadvances⟩ :=
    exists_own_step hcode hbase hsrc h hφ (by omega) (by rw [hm]; exact hallow)
  have hkeep : u.mem = t.mem := by
    rcases hadvances.mem_eq with hkeep | ⟨v, hv⟩
    · exact hkeep
    · cases φ <;> simp [FetchPhase.next, FetchPhase.position] at hv hne
  have hholds := hadvances.holds
  rw [hkeep, hm] at hrun hholds
  exact ⟨u, hrun, hholds, hkeep.trans hm⟩

/-- A thread that is left alone from the start has the combined value ready after four steps. -/
theorem exists_combined (hcode : HasCode bytes start (fetchCode op size base src off))
    (hbase : base.IsGeneral) (hsrc : src.IsGeneral)
    (hallow : s.mem.allows (fetchCell s base off) size.width.bytes = true) :
    ∃ front u, front.length = 4 ∧
      FetchRun op size base src off bytes start s front
        ((FetchPhase.combined (s.mem.held (fetchCell s base off) size)).offset op base src off start)
        u ∧ u.mem = s.mem := by
  have hentry : (FetchPhase.entry : FetchPhase size).Holds op base src off s [] s.regs s.flags :=
    ⟨rfl, quiet_nil⟩
  obtain ⟨t1, h1, hp1, hm1⟩ :=
    exists_quiet_step hcode hbase hsrc .start hentry (show 0 < 4 by decide) hallow rfl
  obtain ⟨t2, h2, hp2, hm2⟩ :=
    exists_quiet_step hcode hbase hsrc h1 hp1 (show 1 < 4 by decide) hallow hm1
  obtain ⟨t3, h3, hp3, hm3⟩ :=
    exists_quiet_step hcode hbase hsrc h2 hp2 (show 2 < 4 by decide) hallow hm2
  obtain ⟨t4, h4, _, hm4⟩ :=
    exists_quiet_step hcode hbase hsrc h3 hp3 (show 3 < 4 by decide) hallow hm3
  exact ⟨_, t4, rfl, h4, hm4⟩

end Steps

/-- The registers and the cell behind a fetching operation: the cell went through one change, from
the old value to the combined one, in one step of the thread; the source has the old value, and
everything else is kept, two scratch registers apart. -/
structure Fetched (op : AluOp) (size : OpSize) (src : VReg) (cell : BitVec 64) (s t : State)
    (trace : List (Memory × Memory)) (v : BitVec size.bits) : Prop where
  /-- One step of the thread changed the cell, and no other step changed anything. -/
  changes : ChangesOnce trace cell size v (op.apply v (low size (s.regs src.native)))
  /-- The source has the old value, extended with zeros. -/
  src_eq : t.regs src.native = v.setWidth 64
  /-- The other registers are kept. -/
  regs_eq : ∀ r, r ≠ src.native → r ≠ .r10 → r ≠ .r11 → t.regs r = s.regs r
  /-- Memory is kept outside the cell. -/
  memory : s.mem.KeepsOutside t.mem cell size.width.bytes

end Fetch

namespace Virtual

/-- The slot is a fetching bitwise operation on a cell of a width. -/
def Insn.IsFetch (i : Insn) (op : AluOp) (size : OpSize) : Prop :=
  (i.code = 0xC3 ∧ size = .narrow ∨ i.code = 0xDB ∧ size = .wide) ∧
    (i.imm = 0x51 ∧ op = .and ∨ i.imm = 0x41 ∧ op = .or ∨ i.imm = 0xA1 ∧ op = .xor)

/-- A fetching slot is read as such. -/
theorem Insn.IsFetch.operation_eq {i : Insn} {op : AluOp} {size : OpSize} (h : i.IsFetch op size)
    {base src : VReg} (hb : VReg.ofIndex? i.dst = some base) (hs : VReg.ofIndex? i.src = some src) :
    i.operation = .ok (.fetch op size base src i.off) := by
  obtain ⟨hcode, himm⟩ := h
  have hatomic : i.atomicOf size base src = .ok (.fetch op size base src i.off) := by
    unfold atomicOf
    rcases himm with ⟨hi, rfl⟩ | ⟨hi, rfl⟩ | ⟨hi, rfl⟩ <;> rw [hi] <;> rfl
  have hstoring : i.operation = i.storing := by
    unfold operation cls
    rcases hcode with ⟨hc, _⟩ | ⟨hc, _⟩ <;> rw [hc] <;> rfl
  rw [hstoring, storing, register_eq_ok.mpr hb, register_eq_ok.mpr hs]
  unfold mode Insn.size
  rcases hcode with ⟨hc, rfl⟩ | ⟨hc, rfl⟩ <;> rw [hc] <;> exact hatomic

end Virtual

/-- Every fetching bitwise slot is lowered to atomic code: however other threads write to the cell,
a run that gets to the end changed it once, in one step, from the value that the source then has. A
thread that may access the cell and is left alone gets to the end within eleven steps. -/
theorem fetched_of_interleaved (i : Insn) (op : AluOp) (size : OpSize) (hi : i.IsFetch op size)
    (hdst : i.dst ≤ 9) (hsrc : i.src ≤ 9) :
    ∃ base src code, VReg.ofIndex? i.dst = some base ∧ VReg.ofIndex? i.src = some src ∧
      i.operation = .ok (.fetch op size base src i.off) ∧
      fitsInt8 (-(codeSize (Lowering.fetchAttempt op size base src i.off) + 2)) = true ∧
      (∀ (p : Pass) (depth : UInt32) (index : Nat) (epilogue : Option Nat),
        p.lower depth index epilogue (.fetch op size base src i.off) = .ok { code }) ∧
      ∀ bytes start s trace offset t, HasCode bytes start code →
        Interleaved bytes (start + codeSize code) (fetchCell s base i.off) size.width.bytes start s
          trace offset t →
        (offset = start + codeSize code →
          ∃ v, Fetched op size src (fetchCell s base i.off) s t trace v) ∧
        (s.mem.allows (fetchCell s base i.off) size.width.bytes = true →
          ∃ back u, back.length ≤ 11 ∧
            run bytes back.length offset t = some (start + codeSize code, u) ∧
            Interleaved bytes (start + codeSize code) (fetchCell s base i.off) size.width.bytes
              start s (trace ++ back) (start + codeSize code) u) := by
  obtain ⟨base, hb, hbase⟩ := VReg.exists_of_index hdst
  obtain ⟨src, hs, hsource⟩ := VReg.exists_of_index hsrc
  refine ⟨base, src, fetchCode op size base src i.off, hb, hs, hi.operation_eq hb hs,
    fitsInt8_attempt op size base src i.off, fun p depth index epilogue => ?_,
    fun bytes start s trace offset t hcode h => ?_⟩
  · rw [Pass.lower, fetch_eq]
    rfl
  · obtain ⟨φ, rfl, hφ, hm⟩ := holds_of_interleaved hcode hbase hsource h
    constructor
    · intro hend
      have hlast : φ.position = 8 := Decidable.byContradiction fun hne => offset_ne_stop hne hend
      obtain ⟨v, rfl⟩ := FetchPhase.eq_finished hlast
      exact ⟨v, hφ.2.2, hφ.1, hφ.2.1, hm⟩
    · intro hallow
      obtain ⟨back, u, hlength, hrun, hend⟩ :=
        run_of_holds hcode hbase hsource h hφ (by rw [hm.allows_eq]; exact hallow)
      exact ⟨back, u, by rw [hlength]; exact φ.left_le _, hrun, hend⟩

/-- A state with an address in the accumulator and memory everywhere. -/
def sharedState : State where
  regs := fun r => if r = .rax then 0x1000 else 0
  flags := none
  mem := ⟨fun _ => 0, fun _ => true⟩

/-- A 32-bit exclusive or whose address and operand are both in the accumulator. Another thread
writes to the cell when the value to exchange is ready, and the run still gets to its end. -/
theorem fetched_interfered :
    ∃ (bytes : List UInt8) (stop : Nat) (front back : List (Memory × Memory)) (offset : Nat)
      (t u : State) (v : BitVec 32), front.length = 4 ∧ t.mem.held 0x1008 .narrow = 0 ∧
      Interleaved bytes stop 0x1008 4 0 sharedState front offset
        (t.setMem (t.mem.put 0x1008 .narrow 7)) ∧
      Interleaved bytes stop 0x1008 4 0 sharedState (front ++ back) stop u ∧
      Fetched .xor .narrow .r0 0x1008 sharedState u (front ++ back) v := by
  obtain ⟨base, src, code, hb, hs, _, _, hlower, hruns⟩ :=
    fetched_of_interleaved ⟨0xC3, 0, 0, 8, 0xA1⟩ .xor .narrow
      ⟨.inl ⟨rfl, rfl⟩, .inr (.inr ⟨rfl, rfl⟩)⟩ (by decide) (by decide)
  obtain rfl : VReg.r0 = base := Option.some.inj hb
  obtain rfl : VReg.r0 = src := Option.some.inj hs
  have hcodeEq := hlower ((sourceOf {} loopingProgram fun _ => none).pass #[] none false) 0 0 none
  rw [Pass.lower, fetch_eq] at hcodeEq
  obtain rfl : fetchCode .xor .narrow .r0 .r0 8 = code := by
    cases hcodeEq
    rfl
  have hcode : HasCode (encodeAll (fetchCode .xor .narrow .r0 .r0 8)) 0
      (fetchCode .xor .narrow .r0 .r0 8) := ⟨[], by simp⟩
  have hgeneral : VReg.r0.IsGeneral := by
    unfold VReg.IsGeneral
    decide
  have hallow : sharedState.mem.allows (fetchCell sharedState .r0 8) 4 = true := by decide
  obtain ⟨front, t, hlength, hfront, hmem⟩ := exists_combined hcode hgeneral hgeneral hallow
  have hother := hfront.other (t.mem.keepsOutside_put (fetchCell sharedState .r0 8) .narrow 7)
  obtain ⟨back, u, _, _, hend⟩ := (hruns _ _ _ _ _ _ hcode hother).2 hallow
  obtain ⟨v, hv⟩ := (hruns _ _ _ _ _ _ hcode hend).1 rfl
  exact ⟨_, _, front, back, _, t, u, v, hlength, by rw [hmem]; decide, hother, hend, hv⟩

end NativeForge
