import NativeForge.Proofs.Layout
import NativeForge.Proofs.Processor

/-!
# Execution of encoded code

Instructions that stand encoded in a piece of code are fetched one by one and executed, so a run
of the processor over bytes is a run over instructions. The stack is memory below the stack
pointer: what is pushed there can be popped again, and nothing else changes.
-/

namespace NativeForge.X64

namespace State

variable (s : State) (r x : Reg) (v : BitVec 64) (f : Option Flags) (m : Memory)

/-- Registers after a register was set. -/
@[simp]
theorem regs_setReg : (s.setReg r v).regs x = if x = r then v else s.regs x := rfl

/-- Setting a register keeps memory. -/
@[simp]
theorem mem_setReg : (s.setReg r v).mem = s.mem := rfl

/-- Setting a register keeps the flags. -/
@[simp]
theorem flags_setReg : (s.setReg r v).flags = s.flags := rfl

/-- Setting the flags keeps registers. -/
@[simp]
theorem regs_setFlags : (s.setFlags f).regs = s.regs := rfl

/-- Setting the flags keeps memory. -/
@[simp]
theorem mem_setFlags : (s.setFlags f).mem = s.mem := rfl

/-- The flags are what they were set to. -/
@[simp]
theorem flags_setFlags : (s.setFlags f).flags = f := rfl

/-- Setting memory keeps registers. -/
@[simp]
theorem regs_setMem : (s.setMem m).regs = s.regs := rfl

/-- Memory is what it was set to. -/
@[simp]
theorem mem_setMem : (s.setMem m).mem = m := rfl

/-- A 64-bit operand is the whole register. -/
@[simp]
theorem value_wide : s.value .wide r = s.regs r := BitVec.setWidth_eq _

/-- Registers after a result was put into one. -/
@[simp]
theorem regs_put (size : OpSize) (w : BitVec size.bits) :
    (s.put size r w).regs x = if x = r then w.setWidth 64 else s.regs x := rfl

/-- Putting a result into a register keeps memory. -/
@[simp]
theorem mem_put (size : OpSize) (w : BitVec size.bits) : (s.put size r w).mem = s.mem := rfl

end State

/-- An instruction that is read back has bytes. -/
theorem Instr.HasOwnEncoding.size_pos {i : Instr} (h : i.HasOwnEncoding) : 0 < i.size := by
  apply List.length_pos_iff.mpr
  intro hnil
  have hd := decode_encode h []
  rw [hnil] at hd
  cases hd

/-- The code holds encoded instructions from an offset on. -/
def HasCode (code : List UInt8) (offset : Nat) (instrs : List Instr) : Prop :=
  ∃ rest, code.drop offset = encodeAll instrs ++ rest

namespace HasCode

variable {code : List UInt8} {offset : Nat} {front back : List Instr} {i : Instr}

/-- The first part of the instructions stands at the offset. -/
theorem left (h : HasCode code offset (front ++ back)) : HasCode code offset front := by
  obtain ⟨rest, h⟩ := h
  exact ⟨encodeAll back ++ rest, by rw [h, encodeAll_append, List.append_assoc]⟩

/-- The bytes of the instructions. -/
theorem take_eq {instrs : List Instr} (h : HasCode code offset instrs) :
    (code.drop offset).take (codeSize instrs) = encodeAll instrs := by
  obtain ⟨rest, h⟩ := h
  rw [h]
  exact List.take_left' (length_encodeAll instrs)

/-- The second part of the instructions stands behind the first part. -/
theorem right (h : HasCode code offset (front ++ back)) :
    HasCode code (offset + codeSize front) back := by
  obtain ⟨rest, h⟩ := h
  refine ⟨rest, ?_⟩
  rw [← List.drop_drop, h, encodeAll_append, List.append_assoc, ← length_encodeAll,
    List.drop_left]

/-- An encoded instruction is fetched, and the next one stands right behind it. -/
theorem fetch_eq (h : HasCode code offset (i :: back)) (hi : i.HasOwnEncoding) :
    fetch code offset = some (i, offset + i.size) := by
  obtain ⟨rest, h⟩ := h
  rw [encodeAll_cons, List.append_assoc] at h
  have hpos : 0 < i.encode.length := hi.size_pos
  have hlength := congrArg List.length h
  simp only [List.length_drop, List.length_append] at hlength
  rw [fetch, h, decode_encode hi, Option.map_some, Option.some.injEq, Prod.mk.injEq]
  refine ⟨rfl, ?_⟩
  simp only [List.length_append, Instr.size]
  omega

end HasCode

/-- A run is a run of its first steps and of the others. -/
theorem run_add (code : List UInt8) (m n offset : Nat) (s : State) :
    run code (m + n) offset s = (run code m offset s).bind fun p => run code n p.1 p.2 := by
  induction m generalizing offset s with
  | zero =>
    rw [Nat.zero_add]
    rfl
  | succ m ih =>
    rw [Nat.add_right_comm, run, run, Option.bind_assoc]
    exact congrArg _ (funext fun p => ih p.1 p.2)

namespace Reaches

variable {code : List UInt8} {a b c : Nat} {s t u : State}

/-- The processor is where it is. -/
theorem refl : Reaches code a s a s := ⟨0, rfl⟩

/-- Runs go on one behind the other. -/
theorem trans (h1 : Reaches code a s b t) (h2 : Reaches code b t c u) : Reaches code a s c u := by
  obtain ⟨m, h1⟩ := h1
  obtain ⟨n, h2⟩ := h2
  refine ⟨m + n, ?_⟩
  rw [run_add, h1]
  exact h2

/-- One step is a run. -/
theorem single (h : step code a s = some (b, t)) : Reaches code a s b t := by
  refine ⟨1, ?_⟩
  rw [run, h]
  rfl

/-- An instruction that goes on at the next one. -/
theorem next {i : Instr} {back : List Instr} (h : HasCode code a (i :: back))
    (hi : i.HasOwnEncoding) (hx : i.exec s = some (t, .next)) :
    Reaches code a s (a + i.size) t := by
  apply single
  rw [step, h.fetch_eq hi]
  simp [hx]

/-- An instruction that jumps. -/
theorem jump {i : Instr} {back : List Instr} {distance : Int} {target : Nat}
    (h : HasCode code a (i :: back)) (hi : i.HasOwnEncoding)
    (hx : i.exec s = some (t, .jump distance))
    (ht : ((a + i.size : Nat) : Int) + distance = target) : Reaches code a s target t := by
  apply single
  rw [step, h.fetch_eq hi]
  simp only [Option.bind_eq_bind, Option.bind_some, hx, ht]
  rw [if_pos (by omega)]
  rfl

end Reaches

/-- An instruction that goes on at the next one is followed by the rest. -/
theorem execAll_next {i : Instr} {s t : State} (h : i.exec s = some (t, .next))
    (rest : List Instr) : execAll (i :: rest) s = execAll rest t := by
  rw [execAll, h]

/-- Instructions in a row are executed one part behind the other. -/
theorem execAll_append (front back : List Instr) (s : State) :
    execAll (front ++ back) s = (execAll front s).bind (execAll back) := by
  induction front generalizing s with
  | nil => rfl
  | cons i front ih =>
    rw [List.cons_append, execAll, execAll]
    split
    · exact ih _
    · rfl

/-- Encoded instructions that go on one behind the other are executed from the bytes. -/
theorem Reaches.execAll {code : List UInt8} {offset : Nat} {instrs : List Instr} {s t : State}
    (h : HasCode code offset instrs) (hi : ∀ i ∈ instrs, i.HasOwnEncoding)
    (hx : X64.execAll instrs s = some t) : Reaches code offset s (offset + codeSize instrs) t := by
  induction instrs generalizing offset s with
  | nil =>
    cases hx
    exact .refl
  | cons i rest ih =>
    rw [X64.execAll] at hx
    split at hx
    · rename_i u hu
      have hfirst := Reaches.next h (hi i (by simp)) hu
      have hright := HasCode.right (show HasCode code offset ([i] ++ rest) from h)
      rw [codeSize_cons, codeSize_nil, Nat.add_zero] at hright
      rw [codeSize_cons, ← Nat.add_assoc]
      exact hfirst.trans (ih hright (fun j hj => hi j (by simp [hj])) hx)
    · cases hx

namespace Memory

/-- The word at an address. -/
def readWord (m : Memory) (a : BitVec 64) : BitVec 64 :=
  BitVec.ofNat 64 (Bytes.value (m.read a 8))

/-- Put a word at an address. -/
def writeWord (m : Memory) (a v : BitVec 64) : Memory :=
  m.write a (Bytes.littleEndian 8 v.toNat)

variable {m m' : Memory} {a b v : BitVec 64}

/-- Writing keeps what may be accessed. -/
@[simp]
theorem mapped_writeWord : (m.writeWord a v).mapped = m.mapped := rfl

/-- Writing a word keeps the bytes outside. -/
theorem byte_writeWord {x : BitVec 64} (h : 8 ≤ (x - a).toNat) :
    (m.writeWord a v).byte x = m.byte x := by
  unfold writeWord write
  dsimp only
  rw [List.getElem?_eq_none (by rw [Bytes.length_littleEndian]; exact h)]
  rfl

/-- Memories that agree on a word hold the same word. -/
theorem readWord_congr (h : ∀ x, (x - a).toNat < 8 → m.byte x = m'.byte x) :
    m.readWord a = m'.readWord a := by
  unfold readWord read
  congr 2
  apply List.map_congr_left
  intro k hk
  have hk8 := List.mem_range.mp hk
  apply h
  bv_omega

/-- A word that was written is read back. -/
theorem readWord_writeWord_self : (m.writeWord a v).readWord a = v := by
  have hread : (m.writeWord a v).read a 8 = Bytes.littleEndian 8 v.toNat := by
    apply List.ext_getElem
    · simp [read]
    · intro k h1 h2
      have hk : k < 8 := by simpa [read] using h1
      have hoff : (a + BitVec.ofNat 64 k - a).toNat = k := by bv_omega
      simp only [read, List.getElem_map, List.getElem_range, writeWord, write]
      rw [hoff, List.getElem?_eq_getElem h2]
      rfl
  rw [readWord, hread, Bytes.value_littleEndian]
  apply BitVec.eq_of_toNat_eq
  rw [BitVec.toNat_ofNat, Nat.one_shiftLeft, Nat.mod_mod, Nat.mod_eq_of_lt v.isLt]

end Memory

/-- The number of bytes that an address lies below the top of the stack, the byte right below it
counting as none. -/
def below (sp a : BitVec 64) : Nat := (sp - 1 - a).toNat

/-- The eight bytes right below the top of the stack are those of the word there. -/
theorem below_lt_eight {sp a : BitVec 64} : below sp a < 8 ↔ (a - (sp - 8)).toNat < 8 := by
  unfold below
  constructor <;> intro h <;> bv_omega

/-- Distances below a stack pointer that went down. -/
theorem below_sub {sp a : BitVec 64} {count : Nat} (hc : count < 2 ^ 64) :
    below (sp - BitVec.ofNat 64 count) a =
      if count ≤ below sp a then below sp a - count else 2 ^ 64 + below sp a - count := by
  unfold below
  split <;> bv_omega

/-- Distances below a stack pointer that went down by one word. -/
theorem below_sub_eight (sp a : BitVec 64) :
    below (sp - 8) a = if 8 ≤ below sp a then below sp a - 8 else 2 ^ 64 + below sp a - 8 :=
  below_sub (by decide)

namespace State

/-- There is room for so many bytes on the stack. -/
def Room (s : State) (count : Nat) : Prop := ∀ a, below (s.regs .rsp) a < count → s.mem.mapped a = true

/-- The state after a push. -/
def pushed (s : State) (v : BitVec 64) : State :=
  (s.setMem (s.mem.writeWord (s.regs .rsp - 8) v)).setReg .rsp (s.regs .rsp - 8)

/-- The state after a pop to a register. -/
def popped (s : State) (r : Reg) : State :=
  (s.setReg .rsp (s.regs .rsp + 8)).setReg r (s.mem.readWord (s.regs .rsp))

variable {s : State}

/-- A push moves the stack pointer. -/
@[simp]
theorem regs_pushed (s : State) (v : BitVec 64) (x : Reg) :
    (s.pushed v).regs x = if x = .rsp then s.regs .rsp - 8 else s.regs x := rfl

/-- A pop to another register moves the stack pointer. -/
theorem rsp_popped (s : State) {r : Reg} (hr : r ≠ .rsp) :
    (s.popped r).regs .rsp = s.regs .rsp + 8 := by
  rw [popped, regs_setReg, if_neg hr.symm, regs_setReg, if_pos rfl]

/-- A push takes eight bytes of the room. -/
theorem Room.pushed {count : Nat} (h : s.Room (count + 8)) (v : BitVec 64) :
    (s.pushed v).Room count := by
  intro a ha
  apply h
  rw [regs_pushed, if_pos rfl, below_sub_eight] at ha
  split at ha <;> omega

/-- Bytes of the stack may be accessed. -/
theorem allows_of_mapped {a : BitVec 64} (h : ∀ x, (x - a).toNat < 8 → s.mem.mapped x = true) :
    s.mem.allows a 8 = true := by
  unfold Memory.allows
  rw [List.all_eq_true]
  intro k hk
  have hk8 := List.mem_range.mp hk
  apply h
  bv_omega

/-- A push succeeds where there is room. -/
theorem push_eq (h : s.Room 8) (v : BitVec 64) : s.push v = some (s.pushed v) := by
  have hallow : s.mem.allows (s.regs .rsp - 8) 8 = true := by
    apply allows_of_mapped
    intro x hx
    exact h x (below_lt_eight.mpr hx)
  rw [push, store, show Width.double.bytes = 8 from rfl, if_pos hallow]
  rfl

/-- A pop succeeds where the stack may be accessed. -/
theorem pop_eq (h : ∀ x, (x - s.regs .rsp).toNat < 8 → s.mem.mapped x = true) (r : Reg) :
    s.pop r = some (s.popped r) := by
  rw [pop, load, show Width.double.bytes = 8 from rfl, if_pos (allows_of_mapped h)]
  rfl

end State

end NativeForge.X64
