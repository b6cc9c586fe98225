import NativeForge.Frame
import NativeForge.Proofs.Jumps
import NativeForge.Proofs.LoweredArithmetic

/-!
# Frames at run time

The prologue of a compiled program builds its frame on the stack and the epilogue takes it down.
In between the frame stays as it was built: the saved words lie above the stack pointer, out of
reach of lowered arithmetic. So the epilogue finds the caller's registers and gives them back.
-/

namespace NativeForge

open X64 Virtual

/-- Memory holds words one below the other, from the top of a stack on. -/
def StackHolds (m : Memory) (top : BitVec 64) : List (BitVec 64) → Prop
  | [] => True
  | v :: rest => m.readWord (top - 8) = v ∧ StackHolds m (top - 8) rest

/-- Memory that agrees on some words holds the same words. -/
theorem StackHolds.congr {m m' : Memory} {top : BitVec 64} {words : List (BitVec 64)}
    (h : StackHolds m top words) (hlen : 8 * words.length < 2 ^ 32)
    (hb : ∀ a, below top a < 8 * words.length → m'.byte a = m.byte a) :
    StackHolds m' top words := by
  induction words generalizing top with
  | nil => trivial
  | cons v rest ih =>
    rw [List.length_cons] at hlen hb
    refine ⟨?_, ih h.2 (by omega) fun a ha => hb a ?_⟩
    · rw [← h.1]
      apply Memory.readWord_congr
      intro x hx
      have hx8 := below_lt_eight.mpr hx
      exact hb x (by omega)
    · rw [below_sub_eight] at ha
      split at ha <;> omega

/-- A stack pointer that goes down twice. -/
theorem sub_ofNat_sub (sp : BitVec 64) (a b : Nat) :
    sp - BitVec.ofNat 64 a - BitVec.ofNat 64 b = sp - BitVec.ofNat 64 (a + b) := by
  rw [BitVec.ofNat_add]
  bv_omega

/-- A stack pointer that goes down by one word and by some more. -/
theorem sub_eight_sub (sp : BitVec 64) (count : Nat) :
    sp - 8 - BitVec.ofNat 64 (8 * count) = sp - BitVec.ofNat 64 (8 * (count + 1)) := by
  rw [Nat.mul_succ, Nat.add_comm]
  exact sub_ofNat_sub sp 8 (8 * count)

/-- Words in a row lie one part below the other. -/
theorem StackHolds.right {m : Memory} {top : BitVec 64} {front back : List (BitVec 64)}
    (h : StackHolds m top (front ++ back)) :
    StackHolds m (top - BitVec.ofNat 64 (8 * front.length)) back := by
  induction front generalizing top with
  | nil => simpa using h
  | cons v front ih =>
    have hback := ih h.2
    rw [sub_eight_sub] at hback
    exact hback

/-- Filler does nothing. -/
theorem exec_filler {code : List Instr} (h : IsFiller code) (s : State) : execAll code s = some s := by
  induction code with
  | nil => rfl
  | cons i rest ih =>
    obtain ⟨extra, rfl⟩ := h i (by simp)
    exact ih fun j hj => h j (by simp [hj])

/-- Filler can be read back. -/
theorem encodable_filler {code : List Instr} (h : IsFiller code) : Encodable code := by
  intro i hi
  obtain ⟨extra, rfl⟩ := h i hi
  trivial

section Saving

variable {rs : List Reg}

/-- Registers are pushed one after the other. -/
theorem exec_pushes {s : State} (hrs : Reg.rsp ∉ rs) (hlen : 8 * rs.length < 2 ^ 32)
    (hroom : s.Room (8 * rs.length)) :
    ∃ t, execAll (rs.map .push) s = some t ∧
      t.regs .rsp = s.regs .rsp - BitVec.ofNat 64 (8 * rs.length) ∧
      (∀ x, x ≠ .rsp → t.regs x = s.regs x) ∧
      StackHolds t.mem (s.regs .rsp) (rs.map s.regs) ∧ KeepsMemory s t (8 * rs.length) := by
  induction rs generalizing s with
  | nil => exact ⟨s, rfl, by simp, fun _ _ => rfl, trivial, .of_eq rfl _⟩
  | cons r rest ih =>
    rw [List.length_cons] at hlen hroom ⊢
    have hr : r ≠ .rsp := fun h => hrs (by simp [h])
    have hrest : Reg.rsp ∉ rest := fun h => hrs (by simp [h])
    have hpush : (Instr.push r).exec s = some (s.pushed (s.regs r), .next) := by
      rw [Instr.exec, State.push_eq fun a ha => hroom a (by omega)]
      rfl
    obtain ⟨t, ht, hsp, hregs, hwords, hk⟩ := ih hrest (by omega)
      (State.Room.pushed (show s.Room (8 * rest.length + 8) from hroom) (s.regs r))
    have hmem : (s.pushed (s.regs r)).mem = s.mem.writeWord (s.regs .rsp - 8) (s.regs r) := rfl
    have hpushed : (s.pushed (s.regs r)).regs .rsp = s.regs .rsp - 8 := by simp
    obtain ⟨hbyte, hmapped⟩ := hk
    rw [hpushed] at hsp hwords hbyte
    rw [hmem] at hbyte hmapped
    refine ⟨t, by rw [List.map_cons, execAll_next hpush, ht], ?_, fun x hx => ?_, ⟨?_, ?_⟩,
      fun a ha => ?_, hmapped⟩
    · rw [hsp, sub_eight_sub]
    · rw [hregs x hx, State.regs_pushed, if_neg hx]
    · rw [← Memory.readWord_writeWord_self (m := s.mem) (a := s.regs .rsp - 8) (v := s.regs r)]
      apply Memory.readWord_congr
      intro x hx
      have hx8 := below_lt_eight.mpr hx
      exact hbyte x (by rw [below_sub_eight, if_neg (by omega)]; omega)
    · have hsame : rest.map (s.pushed (s.regs r)).regs = rest.map s.regs := by
        apply List.map_congr_left
        intro x hx
        have hne : x ≠ .rsp := fun h => hrest (h ▸ hx)
        rw [State.regs_pushed, if_neg hne]
      rw [← hsame]
      exact hwords
    · have hout : ¬(a - (s.regs .rsp - 8)).toNat < 8 := fun h => by
        have := below_lt_eight.mpr h
        omega
      rw [hbyte a (by rw [below_sub_eight, if_pos (by omega)]; omega),
        Memory.byte_writeWord (by omega)]

/-- Saved words are popped one after the other, the last one first. -/
theorem exec_pops {t : State} {top : BitVec 64} {val : Reg → BitVec 64} (hrs : Reg.rsp ∉ rs)
    (hlen : 8 * rs.length < 2 ^ 32)
    (hsp : t.regs .rsp = top - BitVec.ofNat 64 (8 * rs.length))
    (hwords : StackHolds t.mem top (rs.map val))
    (hmapped : ∀ a, below top a < 8 * rs.length → t.mem.mapped a = true) :
    ∃ u, execAll (rs.reverse.map .pop) t = some u ∧ u.regs .rsp = top ∧
      (∀ x ∈ rs, u.regs x = val x) ∧ (∀ x, x ∉ rs → x ≠ .rsp → u.regs x = t.regs x) ∧
      u.mem = t.mem := by
  induction rs generalizing top with
  | nil => exact ⟨t, rfl, by simpa using hsp, by simp, fun _ _ _ => rfl, rfl⟩
  | cons r rest ih =>
    rw [List.length_cons] at hlen hsp hmapped
    have hr : r ≠ .rsp := fun h => hrs (by simp [h])
    have hrest : Reg.rsp ∉ rest := fun h => hrs (by simp [h])
    obtain ⟨u, hu, husp, hval, hregs, hm⟩ := ih hrest (by omega) (by rw [hsp, sub_eight_sub]) hwords.2
      fun a ha => hmapped a (by rw [below_sub_eight] at ha; split at ha <;> omega)
    have hpop : (Instr.pop r).exec u = some (u.popped r, .next) := by
      rw [Instr.exec, State.pop_eq fun x hx => ?_]
      · rfl
      · rw [hm]
        rw [husp] at hx
        have hx8 := below_lt_eight.mpr hx
        exact hmapped x (by omega)
    have hword : (u.popped r).regs r = val r := by
      rw [State.popped, husp, hm, hwords.1, State.regs_setReg, if_pos rfl]
    refine ⟨u.popped r, ?_, ?_, fun x hx => ?_, fun x h1 h2 => ?_, hm⟩
    · rw [List.reverse_cons, List.map_append, execAll_append, hu, Option.bind_some]
      exact (execAll_next hpop []).trans rfl
    · rw [State.rsp_popped u hr, husp]
      exact BitVec.sub_add_cancel _ _
    · by_cases hx1 : x = r
      · rw [hx1, hword]
      · have hx2 : x ∈ rest := by simpa [hx1] using hx
        have hx3 : x ≠ .rsp := fun h => hrest (h ▸ hx2)
        simp [State.popped, hx1, hx3, hval x hx2]
    · rw [List.mem_cons, not_or] at h1
      simp [State.popped, h1.1, h2, hregs x h1.2 h2]

end Saving

/-- The state that a function leaves to its caller, apart from its value: the stack pointer and the
registers that belong to the caller are as they were, and so is memory apart from so many bytes below
the stack pointer. -/
structure Restores (entry s : State) (count : Nat) : Prop where
  /-- The stack pointer and the registers of the caller are as they were. -/
  regs_eq : ∀ r ∈ [Reg.rsp, .rbp, .rbx, .r12, .r13, .r14, .r15], s.regs r = entry.regs r
  /-- Memory is kept. -/
  memory : KeepsMemory entry s count

namespace Frame

variable {f : Frame} {depth : UInt32}

/-- Bytes of a frame above the saved registers: the caller's frame pointer, the stack area and the
counter. -/
def upperSize (f : Frame) (depth : UInt32) : Nat := 8 + depth.toNat + if f.counted then 8 else 0

/-- Bytes of a frame. -/
def size (f : Frame) (depth : UInt32) : Nat := f.upperSize depth + 8 * f.saved.length

/-- The virtual registers at the start of the program: what the caller left in them, except that a
program that starts the counter starts it in the first register. -/
def entryRegisters (f : Frame) (s : State) : Registers :=
  fun r => if r = .r0 ∧ (f.counted && !f.isSubprogram) = true then 0 else s.regs r.native

/-- A frame that was built from an entry state and is still as it was built. -/
structure Stands (f : Frame) (depth : UInt32) (entry s : State) : Prop where
  /-- The frame pointer points at the caller's frame pointer. -/
  rbp_eq : s.regs .rbp = entry.regs .rsp - 8
  /-- The stack pointer points at the last saved register. -/
  rsp_eq : s.regs .rsp = entry.regs .rsp - BitVec.ofNat 64 (f.size depth)
  /-- The caller's frame pointer is in its place. -/
  base_eq : s.mem.readWord (entry.regs .rsp - 8) = entry.regs .rbp
  /-- The saved registers are in their places. -/
  saved_eq : StackHolds s.mem (entry.regs .rsp - BitVec.ofNat 64 (f.upperSize depth))
    ((f.saved.map VReg.native).map entry.regs)
  /-- Registers that the caller keeps values in and that were not saved are as they were. -/
  kept_eq : ∀ r ∈ VReg.calleeSaved, r ∉ f.saved → s.regs r.native = entry.regs r.native
  /-- So is the register that no virtual register lives in. -/
  r12_eq : s.regs .r12 = entry.regs .r12
  /-- Memory is as it was, apart from the frame and sixteen bytes below it. -/
  byte_eq : ∀ a, f.size depth + 16 ≤ below (entry.regs .rsp) a → s.mem.byte a = entry.mem.byte a
  /-- The same memory may be accessed. -/
  mapped_eq : s.mem.mapped = entry.mem.mapped

/-- A frame stands as long as registers and memory stay the same. -/
theorem Stands.congr {entry s t : State} (h : f.Stands depth entry s) (hr : t.regs = s.regs)
    (hm : t.mem = s.mem) : f.Stands depth entry t := by
  obtain ⟨h1, h2, h3, h4, h5, h6, h7, h8⟩ := h
  rw [← hr] at h1 h2 h5 h6
  rw [← hm] at h3 h4 h7 h8
  exact ⟨h1, h2, h3, h4, h5, h6, h7, h8⟩

/-- Inside a frame there is room for sixteen bytes. -/
theorem Stands.room {entry s : State} (h : f.Stands depth entry s)
    (hsize : f.size depth + 16 < 2 ^ 64) (hroom : entry.Room (f.size depth + 16)) : s.Room 16 := by
  intro a ha
  rw [h.mapped_eq]
  rw [h.rsp_eq, below_sub (by omega)] at ha
  exact hroom a (by split at ha <;> omega)

/-- Lowered arithmetic keeps the frame, if its destination was saved or belongs to nobody. -/
theorem Stands.sets {entry s t : State} {dst : VReg} {v : BitVec 64} (h : f.Stands depth entry s)
    (hsize : f.size depth + 16 < 2 ^ 32) (hd : dst.IsGeneral)
    (hsaved : dst ∈ VReg.calleeSaved → dst ∈ f.saved) (ht : Sets s t dst.native v) :
    f.Stands depth entry t := by
  obtain ⟨hne1, hne2, _⟩ := hd.native_ne
  have hkeep : ∀ a, below (entry.regs .rsp) a < f.size depth → t.mem.byte a = s.mem.byte a := by
    intro a ha
    apply ht.memory.byte_eq
    rw [h.rsp_eq, below_sub (by omega), if_neg (by omega)]
    omega
  have hupper : 8 ≤ f.upperSize depth := by
    unfold upperSize
    omega
  have hlower : f.size depth = f.upperSize depth + 8 * f.saved.length := rfl
  have hscratch : ∀ r ∈ VReg.calleeSaved, r.native ≠ .r11 := by decide
  refine ⟨?_, ?_, ?_, ?_, fun r hr hns => ?_, ?_, fun a ha => ?_, ?_⟩
  · rw [ht.regs_eq .rbp hne2.symm (by decide), h.rbp_eq]
  · rw [ht.regs_eq .rsp hne1.symm (by decide), h.rsp_eq]
  · rw [← h.base_eq]
    apply Memory.readWord_congr
    intro x hx
    have hx8 := below_lt_eight.mpr hx
    exact hkeep x (by omega)
  · refine h.saved_eq.congr ?_ fun a ha => hkeep a ?_
    · simp only [List.length_map]
      omega
    · rw [below_sub (by omega)] at ha
      simp only [List.length_map] at ha
      split at ha <;> omega
  · rw [ht.regs_eq, h.kept_eq r hr hns]
    · intro heq
      exact hns (VReg.native_inj.mp heq ▸ hsaved (VReg.native_inj.mp heq ▸ hr))
    · exact hscratch r hr
  · rw [ht.regs_eq .r12 ?_ (by decide), h.r12_eq]
    cases dst <;> decide
  · rw [ht.memory.byte_eq, h.byte_eq a ha]
    rw [h.rsp_eq, below_sub (by omega), if_pos (by omega)]
    omega
  · rw [ht.memory.mapped_eq, h.mapped_eq]

/-- The registers that are pushed behind the stack area: the counter, then those to restore. -/
def pushed (f : Frame) : List Reg := (if f.counted then [.rax] else []) ++ f.saved.map VReg.native

/-- The start of the counter, or filler in its place. -/
theorem exec_counterStart (f : Frame) (s : State) :
    ∃ t, execAll (if f.counted && !f.isSubprogram then [.alu .xor .narrow .rax .rax] else nops 2) s =
        some t ∧
      (∀ r : VReg, t.regs r.native = f.entryRegisters s r) ∧
      (∀ x, x ≠ .rax → t.regs x = s.regs x) ∧ t.mem = s.mem := by
  split
  · rename_i hc
    refine ⟨_, rfl, fun r => ?_, fun x hx => by simp [State.alu, hx], rfl⟩
    have hrax : r.native = .rax ↔ r = .r0 := VReg.native_inj (x := .r0)
    simp [State.alu, AluOp.apply, entryRegisters, hc, hrax]
  · rename_i hc
    refine ⟨s, exec_filler (isFiller_nops 2) s, fun r => ?_, fun x _ => rfl, rfl⟩
    simp [entryRegisters, hc]

/-- The stack area is taken from the stack. -/
theorem exec_area (hdepth : f.IsDepth depth) (hlt : depth.toNat < 2 ^ 31) (s : State) :
    ∃ t, execAll (if f.stackDepth = 0 then []
          else [.aluImm .sub .wide .rsp (.dword depth.toInt32)]) s = some t ∧
      t.regs .rsp = s.regs .rsp - BitVec.ofNat 64 depth.toNat ∧
      (∀ x, x ≠ .rsp → t.regs x = s.regs x) ∧ t.mem = s.mem := by
  split
  · rename_i hz
    have hzero : depth.toNat = 0 := by
      rw [hdepth, hz]
      rfl
    exact ⟨s, rfl, by simp [hzero], fun x _ => rfl, rfl⟩
  · have hfield : depth.toInt32.toInt = depth.toNat := by
      change depth.toBitVec.toInt = depth.toNat
      rw [BitVec.toInt_eq_toNat_of_lt]
      · rfl
      · change 2 * depth.toNat < 2 ^ 32
        omega
    refine ⟨_, rfl, ?_, fun x hx => by simp [State.alu, hx], rfl⟩
    simp only [State.alu, AluOp.apply, State.regs_setFlags, State.regs_put, if_true,
      State.value_wide, SignedField.value, hfield, BitVec.ofInt_natCast, BitVec.setWidth_eq]

/-- What is pushed behind the stack area. -/
theorem pushes_eq (f : Frame) :
    (if f.counted then [.push .rax] else []) ++ f.pushes = f.pushed.map .push := by
  unfold pushed pushes
  split <;> simp

/-- The registers pushed behind the stack area take the rest of the frame. -/
theorem size_eq (f : Frame) (depth : UInt32) :
    f.size depth = 8 + depth.toNat + 8 * f.pushed.length := by
  unfold size upperSize pushed
  rw [List.length_append, List.length_map]
  split
  · rw [List.length_singleton]
    omega
  · rw [List.length_nil]
    omega

/-- The first part of the prologue takes the stack area and points the frame pointer above it. -/
theorem exec_base {entry : State} (hdepth : f.IsDepth depth) (hlt : depth.toNat < 2 ^ 31)
    (hroom : entry.Room 8) :
    ∃ s, execAll (nops 5 ++
          (if f.counted && !f.isSubprogram then [.alu .xor .narrow .rax .rax] else nops 2) ++
          [.push .rbp, .mov .wide .rbp .rsp] ++
          (if f.stackDepth = 0 then [] else [.aluImm .sub .wide .rsp (.dword depth.toInt32)])) entry =
        some s ∧
      s.regs .rbp = entry.regs .rsp - 8 ∧
      s.regs .rsp = entry.regs .rsp - BitVec.ofNat 64 (8 + depth.toNat) ∧
      (∀ r : VReg, r.IsGeneral → s.regs r.native = f.entryRegisters entry r) ∧
      (∀ x, x ≠ .rax → x ≠ .rbp → x ≠ .rsp → s.regs x = entry.regs x) ∧
      s.mem = entry.mem.writeWord (entry.regs .rsp - 8) (entry.regs .rbp) := by
  obtain ⟨s1, h1, hv1, hr1, hm1⟩ := f.exec_counterStart entry
  have hrsp1 := hr1 .rsp (by decide)
  have hrbp1 := hr1 .rbp (by decide)
  have hroom1 : s1.Room 8 := by
    intro a ha
    rw [hm1]
    rw [hrsp1] at ha
    exact hroom a ha
  have hpush : (Instr.push .rbp).exec s1 = some (s1.pushed (s1.regs .rbp), .next) := by
    rw [Instr.exec, State.push_eq hroom1]
    rfl
  obtain ⟨s2, hs2⟩ : ∃ s2, s2 = (s1.pushed (s1.regs .rbp)).put .wide .rbp (s1.regs .rsp - 8) :=
    ⟨_, rfl⟩
  have hmove : (Instr.mov .wide .rbp .rsp).exec (s1.pushed (s1.regs .rbp)) = some (s2, .next) := by
    rw [Instr.exec, State.value_wide, State.regs_pushed, if_pos rfl, hs2]
    rfl
  have hr2 : ∀ x, x ≠ .rbp → x ≠ .rsp → s2.regs x = s1.regs x := by
    intro x h1 h2
    simp [hs2, h1, h2]
  obtain ⟨s3, h3, hsp3, hr3, hm3⟩ := exec_area hdepth hlt s2
  refine ⟨s3, ?_, ?_, ?_, fun r hr => ?_, fun x hx1 hx2 hx3 => ?_, ?_⟩
  · rw [execAll_append, execAll_append, execAll_append, exec_filler (isFiller_nops 5),
      Option.bind_some, h1, Option.bind_some, execAll_next hpush, execAll_next hmove, execAll,
      Option.bind_some, h3]
  · rw [hr3 .rbp (by decide), hs2, State.regs_put, if_pos rfl, hrsp1, BitVec.setWidth_eq]
  · have hrsp2 : s2.regs .rsp = entry.regs .rsp - 8 := by simp [hs2, hrsp1]
    rw [hsp3, hrsp2]
    exact sub_ofNat_sub _ 8 depth.toNat
  · obtain ⟨hne1, hne2, _⟩ := hr.native_ne
    rw [hr3 _ hne1, hr2 _ hne2 hne1, hv1]
  · rw [hr3 x hx3, hr2 x hx2 hx3, hr1 x hx1]
  · rw [hm3, hs2, ← hrsp1, ← hrbp1, ← hm1]
    rfl

/-- The prologue builds the frame, and the program starts with its entry registers. -/
theorem exec_prologue {entry : State} (hdepth : f.IsDepth depth) (hlt : depth.toNat < 2 ^ 31)
    (hsaved : ∀ r ∈ f.saved, r ∈ VReg.calleeSaved) (hlen : f.saved.length ≤ 4)
    (hroom : entry.Room (f.size depth + 16)) :
    ∃ s, execAll (f.prologue depth) entry = some s ∧ f.Stands depth entry s ∧
      Agrees s (f.entryRegisters entry) := by
  have hcount : f.pushed.length ≤ 5 := by
    unfold pushed
    split <;> simp <;> omega
  have hsize := f.size_eq depth
  have hcallee : ∀ r ∈ VReg.calleeSaved, r.native ≠ .rax ∧ r.native ≠ .rbp ∧ r.native ≠ .rsp := by
    decide
  obtain ⟨s, hs, hrbp, hrsp, hagree, hregs, hmem⟩ := exec_base hdepth hlt fun a ha =>
    hroom a (by omega)
  have hpushed : Reg.rsp ∉ f.pushed := by
    unfold pushed
    rw [List.mem_append, not_or]
    refine ⟨by split <;> simp, fun h => ?_⟩
    obtain ⟨r, hr, heq⟩ := List.mem_map.mp h
    exact (hcallee r (hsaved r hr)).2.2 heq
  have hroomPushed : s.Room (8 * f.pushed.length) := by
    intro a ha
    rw [hmem, Memory.mapped_writeWord]
    rw [hrsp, below_sub (by omega)] at ha
    exact hroom a (by split at ha <;> omega)
  obtain ⟨t, ht, htsp, htregs, hwords, hk⟩ := exec_pushes hpushed (by omega) hroomPushed
  have hkept : ∀ r ∈ VReg.calleeSaved, t.regs r.native = entry.regs r.native := by
    intro r hr
    obtain ⟨hne1, hne2, hne3⟩ := hcallee r hr
    rw [htregs _ hne3, hregs _ hne1 hne2 hne3]
  refine ⟨t, ?_, ⟨?_, ?_, ?_, ?_, fun r hr _ => hkept r hr, ?_, fun a ha => ?_, ?_⟩, fun r hr => ?_⟩
  · rw [prologue, List.append_assoc _ (if f.counted then _ else _), pushes_eq, execAll_append, hs]
    exact ht
  · rw [htregs .rbp (by decide), hrbp]
  · rw [htsp, hrsp, sub_ofNat_sub, ← hsize]
  · -- the caller's frame pointer lies above everything that was pushed later
    rw [← Memory.readWord_writeWord_self (m := entry.mem) (a := entry.regs .rsp - 8)
      (v := entry.regs .rbp), ← hmem]
    apply Memory.readWord_congr
    intro x hx
    have hx8 := below_lt_eight.mpr hx
    apply hk.byte_eq
    rw [hrsp, below_sub (by omega), if_neg (by omega)]
    omega
  · rw [pushed, List.map_append] at hwords
    have hright := hwords.right
    have htop : s.regs .rsp - BitVec.ofNat 64
        (8 * ((if f.counted then [Reg.rax] else []).map s.regs).length) =
        entry.regs .rsp - BitVec.ofNat 64 (f.upperSize depth) := by
      rw [hrsp, sub_ofNat_sub, upperSize]
      split <;> rfl
    have hsame : (f.saved.map VReg.native).map s.regs = (f.saved.map VReg.native).map entry.regs := by
      apply List.map_congr_left
      intro x hx
      obtain ⟨r, hr, rfl⟩ := List.mem_map.mp hx
      obtain ⟨hne1, hne2, hne3⟩ := hcallee r (hsaved r hr)
      exact hregs _ hne1 hne2 hne3
    rw [htop, hsame] at hright
    exact hright
  · rw [htregs .r12 (by decide), hregs .r12 (by decide) (by decide) (by decide)]
  · have hout : ¬(a - (entry.regs .rsp - 8)).toNat < 8 := fun h => by
      have := below_lt_eight.mpr h
      omega
    rw [hk.byte_eq, hmem, Memory.byte_writeWord (by omega)]
    rw [hrsp, below_sub (by omega), if_pos (by omega)]
    omega
  · rw [hk.mapped_eq, hmem, Memory.mapped_writeWord]
  · rw [htregs _ hr.native_ne.1, hagree r hr]

/-- The epilogue takes the frame down and gives the caller's registers back. -/
theorem exec_epilogue {entry s : State} (h : f.Stands depth entry s)
    (hsaved : ∀ r ∈ f.saved, r ∈ VReg.calleeSaved) (hsize : f.size depth + 16 < 2 ^ 32)
    (hroom : entry.Room (f.size depth + 16)) :
    ∃ t, execAll (f.pops ++ [.leave]) s = some t ∧ t.regs .rax = s.regs .rax ∧
      Restores entry t (f.size depth + 16) := by
  have hcallee : ∀ r ∈ VReg.calleeSaved, r.native ≠ .rax ∧ r.native ≠ .rbp ∧ r.native ≠ .rsp ∧
      r.native ≠ .r12 := by
    decide
  have hne : ∀ x, (∀ r ∈ VReg.calleeSaved, r.native ≠ x) → x ∉ f.saved.map VReg.native := by
    intro x hx hmem
    obtain ⟨r, hr, heq⟩ := List.mem_map.mp hmem
    exact hx r (hsaved r hr) heq
  have hupper : 8 ≤ f.upperSize depth := by
    unfold upperSize
    omega
  have hlower : f.size depth = f.upperSize depth + 8 * f.saved.length := rfl
  have hmapped : ∀ a, below (entry.regs .rsp) a < f.size depth + 16 → s.mem.mapped a = true := by
    intro a ha
    rw [h.mapped_eq]
    exact hroom a ha
  have hcode : f.pops = (f.saved.map VReg.native).reverse.map .pop := by
    rw [pops, ← List.map_reverse, List.map_map]
    rfl
  obtain ⟨u, hu, husp, hval, hregs, hm⟩ := exec_pops (t := s)
    (hne .rsp fun r hr => (hcallee r hr).2.2.1) (by rw [List.length_map]; omega)
    (by rw [List.length_map, sub_ofNat_sub, ← hlower]; exact h.rsp_eq) h.saved_eq
    (fun a ha => hmapped a (by
      rw [List.length_map, below_sub (by omega)] at ha
      split at ha <;> omega))
  have hrbp : u.regs .rbp = entry.regs .rsp - 8 := by
    rw [hregs .rbp (hne .rbp fun r hr => (hcallee r hr).2.1) (by decide), h.rbp_eq]
  have hleave : Instr.leave.exec u =
      some ((u.setReg .rsp (u.regs .rbp)).popped .rbp, .next) := by
    rw [Instr.exec, State.pop_eq fun x hx => ?_]
    · rfl
    · rw [State.mem_setReg, hm]
      rw [State.regs_setReg, if_pos rfl, hrbp] at hx
      have hx8 := below_lt_eight.mpr hx
      exact hmapped x (by omega)
  have hother : ∀ x, x ≠ .rbp → x ≠ .rsp →
      ((u.setReg .rsp (u.regs .rbp)).popped .rbp).regs x = u.regs x := by
    intro x h1 h2
    simp [State.popped, h1, h2]
  have hkept : ∀ r ∈ VReg.calleeSaved, u.regs r.native = entry.regs r.native := by
    intro r hr
    by_cases hs : r ∈ f.saved
    · exact hval _ (List.mem_map_of_mem hs)
    · rw [hregs _ _ (hcallee r hr).2.2.1, h.kept_eq r hr hs]
      intro hmem
      obtain ⟨x, hx, heq⟩ := List.mem_map.mp hmem
      exact hs (VReg.native_inj.mp heq ▸ hx)
  refine ⟨(u.setReg .rsp (u.regs .rbp)).popped .rbp, ?_, ?_, ⟨?_, ?_, ?_⟩⟩
  · rw [hcode, execAll_append, hu, Option.bind_some, execAll_next hleave, execAll]
  · rw [hother .rax (by decide) (by decide),
      hregs .rax (hne .rax fun r hr => (hcallee r hr).1) (by decide)]
  · have hrsp : ((u.setReg .rsp (u.regs .rbp)).popped .rbp).regs .rsp = entry.regs .rsp := by
      rw [State.rsp_popped _ (by decide), State.regs_setReg, if_pos rfl, hrbp]
      exact BitVec.sub_add_cancel _ _
    have hbase : ((u.setReg .rsp (u.regs .rbp)).popped .rbp).regs .rbp = entry.regs .rbp := by
      rw [← h.base_eq, ← hm, ← hrbp]
      simp [State.popped]
    have hr12 : u.regs .r12 = entry.regs .r12 := by
      rw [hregs .r12 (hne .r12 fun r hr => (hcallee r hr).2.2.2) (by decide), h.r12_eq]
    intro r hr
    simp only [List.mem_cons, List.not_mem_nil, or_false] at hr
    rcases hr with rfl | rfl | rfl | rfl | rfl | rfl | rfl
    · exact hrsp
    · exact hbase
    · exact (hother .rbx (by decide) (by decide)).trans (hkept .r6 (by decide))
    · exact (hother .r12 (by decide) (by decide)).trans hr12
    · exact (hother .r13 (by decide) (by decide)).trans (hkept .r7 (by decide))
    · exact (hother .r14 (by decide) (by decide)).trans (hkept .r8 (by decide))
    · exact (hother .r15 (by decide) (by decide)).trans (hkept .r9 (by decide))
  · intro a ha
    exact (congrArg (fun m => m.byte a) hm).trans (h.byte_eq a ha)
  · exact (congrArg Memory.mapped hm).trans h.mapped_eq

end Frame

end NativeForge
