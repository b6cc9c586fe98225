import NativeForge.Proofs.CallingCode
import NativeForge.Proofs.FrameExecution
import NativeForge.Trampoline.Code

/-!
# Frames of trampolines

A trampoline keeps its state on the stack: the caller's frame pointer, the return value, the
arguments, what it tells the programs about them, a context for the hooks and a register of the
caller. The parts are found by their depth below the stack pointer at entry. A frame stands while
the parts that are written once stay as they are; the functions that are called may change the
arguments only, so it stands until it is taken down.
-/

namespace NativeForge

namespace X64

namespace Memory

variable {m m' : Memory} {a x : BitVec 64} {bytes : List UInt8} {count : Nat}

/-- Writing keeps the bytes outside. -/
theorem byte_write (h : bytes.length ≤ (x - a).toNat) : (m.write a bytes).byte x = m.byte x := by
  unfold write
  dsimp only
  rw [List.getElem?_eq_none h]
  rfl

/-- Memories that agree on some bytes hold the same bytes. -/
theorem read_congr (hcount : count ≤ 8) (h : ∀ x, (x - a).toNat < count → m.byte x = m'.byte x) :
    m.read a count = m'.read a count := by
  unfold read
  apply List.map_congr_left
  intro k hk
  have hlt := List.mem_range.mp hk
  apply h
  bv_omega

/-- Bytes that were written are read back. -/
theorem read_write_self (hcount : bytes.length ≤ 8) :
    (m.write a bytes).read a bytes.length = bytes := by
  apply List.ext_getElem
  · simp [read]
  · intro k h1 h2
    have hoff : (a + BitVec.ofNat 64 k - a).toNat = k := by bv_omega
    simp only [read, List.getElem_map, List.getElem_range, write]
    rw [hoff, List.getElem?_eq_getElem h2]
    rfl

/-- Bytes may be accessed together if each of them may. -/
theorem allows_of_mapped (hcount : count ≤ 8)
    (h : ∀ x, (x - a).toNat < count → m.mapped x = true) : m.allows a count = true := by
  unfold allows
  rw [List.all_eq_true]
  intro k hk
  have hlt := List.mem_range.mp hk
  apply h
  bv_omega

end Memory

/-- No access is wider than a word. -/
theorem bytes_le (width : Width) : width.bytes ≤ 8 := by
  cases width <;> decide

end X64

namespace Trampoline

open X64 Target

/-- The address of the word at a depth below the frame pointer, for the stack pointer at entry. -/
def cell (sp : BitVec 64) (n : Nat) : BitVec 64 := sp - 8 - BitVec.ofNat 64 n

/-- The bytes of a word are found by their depth. -/
theorem sub_cell_lt {sp a : BitVec 64} {n : Nat} (hn : n < 2 ^ 32) :
    (a - cell sp n).toNat < 8 ↔ n ≤ X64.below sp a ∧ X64.below sp a < n + 8 := by
  unfold cell X64.below
  constructor
  · intro h
    constructor <;> bv_omega
  · intro h
    bv_omega

/-- A displacement from the frame pointer leads to the word at its depth. -/
theorem address_below {s : State} {sp : BitVec 64} {n : Nat} (hrbp : s.regs .rbp = sp - 8)
    (hn : n < 2 ^ 31) : s.address .rbp (below n).value = cell sp n := by
  have hvalue : (below n).value = -(n : Int) := by
    rw [below, value_shortest, Int32.toInt_ofInt_of_le (by omega) (by omega)]
  rw [State.address, hvalue, hrbp, BitVec.ofInt_neg, BitVec.ofInt_natCast]
  exact (BitVec.sub_eq_add_neg _ _).symm

/-- The return value is one word below the frame pointer. -/
theorem below_eight : below 8 = returnSlot := rfl

section Cells

variable {s : State} {sp : BitVec 64} {n : Nat}

/-- A word at a depth may be accessed if its bytes may. -/
theorem mapped_cell (hn : n < 2 ^ 32)
    (hm : ∀ a, n ≤ X64.below sp a → X64.below sp a < n + 8 → s.mem.mapped a = true)
    (a : BitVec 64) (ha : (a - cell sp n).toNat < 8) : s.mem.mapped a = true := by
  obtain ⟨hlo, hhi⟩ := (sub_cell_lt hn).mp ha
  exact hm a hlo hhi

/-- A store to a depth below the frame pointer. -/
theorem exec_store_below (width : Width) (reg : Reg) (hrbp : s.regs .rbp = sp - 8) (hn : n < 2 ^ 31)
    (hm : ∀ a, n ≤ X64.below sp a → X64.below sp a < n + 8 → s.mem.mapped a = true) :
    (Instr.store width .rbp reg (below n)).exec s =
      some (s.setMem (s.mem.write (cell sp n)
        (Bytes.littleEndian width.bytes (s.regs reg).toNat)), .next) := by
  have hwidth := bytes_le width
  have hallow : s.mem.allows (cell sp n) width.bytes = true :=
    Memory.allows_of_mapped hwidth fun x hx => mapped_cell (by omega) hm x (by omega)
  rw [Instr.exec, address_below hrbp hn, State.store, if_pos hallow]
  rfl

/-- A load from a depth below the frame pointer. -/
theorem load_below (width : Width) (hrbp : s.regs .rbp = sp - 8) (hn : n < 2 ^ 31)
    (hm : ∀ a, n ≤ X64.below sp a → X64.below sp a < n + 8 → s.mem.mapped a = true) :
    s.load (s.address .rbp (below n).value) width =
      some (Bytes.value (s.mem.read (cell sp n) width.bytes)) := by
  have hwidth := bytes_le width
  have hallow : s.mem.allows (cell sp n) width.bytes = true :=
    Memory.allows_of_mapped hwidth fun x hx => mapped_cell (by omega) hm x (by omega)
  rw [address_below hrbp hn, State.load, if_pos hallow]

/-- The address of a depth below the frame pointer. -/
theorem exec_lea_below (reg : Reg) (hrbp : s.regs .rbp = sp - 8) (hn : n < 2 ^ 31) :
    (Instr.lea reg .rbp (below n)).exec s = some (s.setReg reg (cell sp n), .next) := by
  rw [Instr.exec, address_below hrbp hn]
  rfl

/-- Memories that agree at a depth hold the same word there. -/
theorem readWord_cell_congr {m m' : Memory} (hn : n < 2 ^ 32)
    (h : ∀ a, n ≤ X64.below sp a → X64.below sp a < n + 8 → m'.byte a = m.byte a) :
    m'.readWord (cell sp n) = m.readWord (cell sp n) :=
  Memory.readWord_congr fun a ha => by
    obtain ⟨hlo, hhi⟩ := (sub_cell_lt hn).mp ha
    exact h a hlo hhi

/-- Writing at a depth keeps the bytes elsewhere. -/
theorem byte_write_cell {m : Memory} {bytes : List UInt8} {a : BitVec 64} (hn : n < 2 ^ 32)
    (hbytes : bytes.length ≤ 8) (h : X64.below sp a < n ∨ n + 8 ≤ X64.below sp a) :
    (m.write (cell sp n) bytes).byte a = m.byte a := by
  apply Memory.byte_write
  have hout : ¬(a - cell sp n).toNat < 8 := fun hlt => by
    have := (sub_cell_lt hn).mp hlt
    omega
  omega

end Cells

/-- Bytes of the return value, if it is kept. -/
def Slots.kept (z : Slots) : Nat := if z.keepsReturn then 8 else 0

/-- A return value that is kept has the size of a word. -/
theorem Slots.kept_eq {z : Slots} (h : z.keepsReturn = true) : z.kept = 8 := if_pos h

/-- The return value is kept if the function is called or an earlier program's value is asked for. -/
theorem Request.keepsReturn_eq (r : Request) :
    r.slots.keepsReturn = (r.flags.callWrapped || r.flags.returnEntryValue) := rfl

/-- The depths of the arguments. -/
def Slots.InArgs (z : Slots) (d : Nat) : Prop := 8 + z.kept ≤ d ∧ d < z.args + 8

/-- The depths that are written once: the caller's frame pointer, the number of arguments, the
address of the function and the caller's register. -/
def Slots.Guarded (z : Slots) (d : Nat) : Prop :=
  d < 8 ∨ (z.count ≤ d ∧ d < z.address + 8) ∨ (z.size + 8 ≤ d ∧ d < z.size + 16)

/-- The order of the parts of a frame. -/
theorem Request.slots_order (r : Request) :
    r.slots.args = 8 * r.args.length + r.slots.kept ∧ r.slots.count = r.slots.args + 8 ∧
      r.slots.address = r.slots.count + (if r.flags.storeAddress then 8 else 0) ∧
      r.slots.context = r.slots.address + 16 ∧ r.slots.context ≤ r.slots.size ∧
      r.slots.size < r.slots.context + 16 := by
  refine ⟨rfl, rfl, rfl, rfl, ?_, ?_⟩
  · change _ ≤ roundUp r.slots.context 16
    unfold roundUp
    omega
  · change roundUp r.slots.context 16 < _
    unfold roundUp
    omega

/-- A request that passes the check has at most six arguments. -/
theorem Request.check_args {r : Request} (h : r.check = .ok ()) : r.args.length ≤ 6 := by
  unfold Request.check at h
  split at h
  · exact absurd h (report_ne_ok _ _)
  · rename_i hle
    exact Nat.le_of_not_lt hle

/-- The frame of a request that passes the check is small. -/
theorem Request.slots_size_le {r : Request} (h : r.args.length ≤ 6) : r.slots.size ≤ 112 := by
  obtain ⟨hargs, hcount, haddress, hcontext, _, hsize⟩ := r.slots_order
  have hkept : r.slots.kept ≤ 8 := by
    unfold Slots.kept
    split <;> omega
  have hstored : (if r.flags.storeAddress then 8 else 0) ≤ 8 := by split <;> omega
  have heven : r.slots.size % 16 = 0 := by
    change roundUp r.slots.context 16 % 16 = 0
    unfold roundUp
    omega
  omega

/-- A function call in a trampoline is entered with the stack pointer below the frame and the return
address. -/
def Entered (z : Slots) (sp : BitVec 64) (s : State) : Prop :=
  s.regs .rsp = sp - BitVec.ofNat 64 (z.size + 24)

/-- The functions return normally to a trampoline: they take their return address from the stack,
keep the registers `rbx` and `rbp`, and write to no byte of the frame but those of the arguments. -/
structure Normal (z : Slots) (sp : BitVec 64) (callees : Callees) : Prop where
  /-- The return address is taken from the stack. -/
  rsp_eq : ∀ history target s, Entered z sp s →
    (callees history target s).regs .rsp = s.regs .rsp + 8
  /-- `rbx` is kept. -/
  rbx_eq : ∀ history target s, Entered z sp s → (callees history target s).regs .rbx = s.regs .rbx
  /-- `rbp` is kept. -/
  rbp_eq : ∀ history target s, Entered z sp s → (callees history target s).regs .rbp = s.regs .rbp
  /-- The frame is kept, the arguments apart. -/
  byte_eq : ∀ history target s, Entered z sp s → ∀ a, X64.below sp a < z.size + 16 →
    ¬z.InArgs (X64.below sp a) → (callees history target s).mem.byte a = s.mem.byte a
  /-- The stack stays. -/
  mapped : ∀ history target s, Entered z sp s → ∀ a, X64.below sp a < z.size + 24 →
    s.mem.mapped a = true → (callees history target s).mem.mapped a = true

/-- A frame that was built from an entry state and is still as it was built. -/
structure Stands (r : Request) (entry s : State) : Prop where
  /-- The frame pointer points at the caller's frame pointer. -/
  rbp_eq : s.regs .rbp = entry.regs .rsp - 8
  /-- The stack pointer points at the caller's register. -/
  rsp_eq : s.regs .rsp = entry.regs .rsp - BitVec.ofNat 64 (r.slots.size + 16)
  /-- The caller's frame pointer is in its place. -/
  base_eq : s.mem.readWord (cell (entry.regs .rsp) 0) = entry.regs .rbp
  /-- The caller's register is in its place. -/
  saved_eq : s.mem.readWord (cell (entry.regs .rsp) (r.slots.size + 8)) = entry.regs .rbx
  /-- The number of arguments is in its place. -/
  count_eq : s.mem.readWord (cell (entry.regs .rsp) r.slots.count) = BitVec.ofNat 64 r.args.length
  /-- The address of the function is in its place, if it is asked for: the return address is behind
  the call at its start. -/
  address_eq : r.flags.storeAddress = true →
    s.mem.readWord (cell (entry.regs .rsp) r.slots.address) =
      entry.mem.readWord (entry.regs .rsp) - 5
  /-- The frame may be accessed, and a word below it. -/
  mapped : ∀ a, X64.below (entry.regs .rsp) a < r.slots.size + 24 → s.mem.mapped a = true

namespace Stands

variable {r : Request} {entry s t : State}

/-- A frame stands as long as the stack stays in place and the parts that are written once stay as
they are. -/
theorem congr (h : Stands r entry s) (hsize : r.slots.size ≤ 112)
    (hrbp : t.regs .rbp = s.regs .rbp) (hrsp : t.regs .rsp = s.regs .rsp)
    (hbyte : ∀ a, r.slots.Guarded (X64.below (entry.regs .rsp) a) → t.mem.byte a = s.mem.byte a)
    (hmapped : ∀ a, X64.below (entry.regs .rsp) a < r.slots.size + 24 → s.mem.mapped a = true →
      t.mem.mapped a = true) : Stands r entry t := by
  obtain ⟨_, hcount, haddress, hcontext, hle, _⟩ := r.slots_order
  unfold Slots.Guarded at hbyte
  refine ⟨hrbp.trans h.rbp_eq, hrsp.trans h.rsp_eq, ?_, ?_, ?_, fun hstored => ?_,
    fun a ha => hmapped a ha (h.mapped a ha)⟩
  · rw [← h.base_eq]
    exact readWord_cell_congr (by omega) fun a _ hhi => hbyte a (by omega)
  · rw [← h.saved_eq]
    exact readWord_cell_congr (by omega) fun a hlo hhi => hbyte a (by omega)
  · rw [← h.count_eq]
    exact readWord_cell_congr (by omega) fun a hlo hhi => hbyte a (by omega)
  · rw [← h.address_eq hstored]
    exact readWord_cell_congr (by omega) fun a hlo hhi => hbyte a (by omega)

/-- A frame stands as long as memory and the stack stay in place. -/
theorem of_mem_eq (h : Stands r entry s) (hsize : r.slots.size ≤ 112)
    (hrbp : t.regs .rbp = s.regs .rbp) (hrsp : t.regs .rsp = s.regs .rsp) (hmem : t.mem = s.mem) :
    Stands r entry t :=
  h.congr hsize hrbp hrsp (fun _ _ => by rw [hmem]) fun _ _ hm => by rw [hmem]; exact hm

end Stands

/-- The arguments are as they were, and so is memory outside the frame and the word below it. -/
def Untouched (z : Slots) (sp : BitVec 64) (m m' : Memory) : Prop :=
  ∀ a, z.size + 24 ≤ X64.below sp a ∨ z.InArgs (X64.below sp a) → m'.byte a = m.byte a

/-- What is untouched twice is untouched. -/
theorem Untouched.trans {z : Slots} {sp : BitVec 64} {m m' m'' : Memory}
    (h1 : Untouched z sp m m') (h2 : Untouched z sp m' m'') : Untouched z sp m m'' :=
  fun a ha => (h2 a ha).trans (h1 a ha)

/-- Memory that did not change is untouched. -/
theorem Untouched.of_eq {z : Slots} {sp : BitVec 64} {m m' : Memory} (h : m' = m) :
    Untouched z sp m m' :=
  fun a _ => by rw [h]

/-- A call that a trampoline makes from a state, with what it finds afterwards. -/
structure Called (r : Request) (entry s : State) (target : BitVec 64) (c : MadeCall) : Prop where
  /-- The function. -/
  target_eq : c.target = target
  /-- The function finds the registers, the stack pointer apart. -/
  regs_eq : ∀ reg, reg ≠ .rsp → c.before.regs reg = s.regs reg
  /-- The function finds memory, the return address apart. -/
  before_eq : ∀ a, X64.below (entry.regs .rsp) a < r.slots.size + 16 ∨
    r.slots.size + 24 ≤ X64.below (entry.regs .rsp) a → c.before.mem.byte a = s.mem.byte a
  /-- Afterwards the frame is as it was, the arguments apart. -/
  after_eq : ∀ a, X64.below (entry.regs .rsp) a < r.slots.size + 16 →
    ¬r.slots.InArgs (X64.below (entry.regs .rsp) a) → c.after.mem.byte a = s.mem.byte a
  /-- The register that the trampoline uses is as it was. -/
  rbx_eq : c.after.regs .rbx = s.regs .rbx
  /-- The frame stands. -/
  stands : Stands r entry c.after

namespace Called

variable {r : Request} {entry s : State} {target : BitVec 64} {c : MadeCall}

/-- Between the frame and the function there is only the return address. -/
theorem untouched (h : Called r entry s target c) :
    Untouched r.slots (entry.regs .rsp) s.mem c.before.mem := by
  obtain ⟨_, hcount, haddress, hcontext, hle, _⟩ := r.slots_order
  intro a ha
  refine h.before_eq a (ha.symm.imp_left fun hin => ?_)
  unfold Slots.InArgs at hin
  omega

/-- A word of the frame that is no argument, as the function finds and leaves it. -/
theorem readWord_eq (h : Called r entry s target c) {n : Nat} (hn : n + 8 ≤ r.slots.size + 16)
    (hsize : r.slots.size ≤ 112) (hargs : n + 8 ≤ 8 + r.slots.kept ∨ r.slots.args + 8 ≤ n) :
    c.before.mem.readWord (cell (entry.regs .rsp) n) = s.mem.readWord (cell (entry.regs .rsp) n) ∧
      c.after.mem.readWord (cell (entry.regs .rsp) n) =
        s.mem.readWord (cell (entry.regs .rsp) n) := by
  constructor
  · exact readWord_cell_congr (by omega) fun a _ hhi => h.before_eq a (.inl (by omega))
  · refine readWord_cell_congr (by omega) fun a hlo hhi => h.after_eq a (by omega) fun hin => ?_
    unfold Slots.InArgs at hin
    omega

end Called

namespace Stands

variable {r : Request} {entry s t : State}

/-- There is room for a return address below a frame. -/
theorem room (h : Stands r entry s) (hsize : r.slots.size ≤ 112) : s.Room 8 := by
  intro a ha
  rw [h.rsp_eq, below_sub (by omega)] at ha
  exact h.mapped a (by split at ha <;> omega)

/-- A call from a standing frame. -/
theorem call (h : Stands r entry s) (hsize : r.slots.size ≤ 112) {x : Linked}
    (hnormal : Normal r.slots (entry.regs .rsp) x.callees) (history : List MadeCall) {a : Nat}
    {rel : Int32} {back : List Instr} (hcode : HasCode x.code a (.call rel :: back))
    {target : BitVec 64}
    (htarget : x.base + BitVec.ofNat 64 (a + 5) + BitVec.ofInt 64 rel.toInt = target) :
    ∃ c, x.Makes history a s (a + 5) c.after [c] ∧ Called r entry s target c := by
  have hmakes : x.Makes history a s (a + 5) _ _ := .call hcode (h.room hsize) htarget
  obtain ⟨_, hcount, haddress, hcontext, hle, _⟩ := r.slots_order
  generalize hback : x.base + BitVec.ofNat 64 (a + 5) = address at hmakes
  have hentered : Entered r.slots (entry.regs .rsp) (s.pushed address) := by
    change s.regs .rsp - 8 = _
    rw [h.rsp_eq]
    exact sub_ofNat_sub _ _ 8
  have hpushed : ∀ y, X64.below (entry.regs .rsp) y < r.slots.size + 16 ∨
      r.slots.size + 24 ≤ X64.below (entry.regs .rsp) y →
      (s.pushed address).mem.byte y = s.mem.byte y := by
    intro y hy
    have hcell : s.regs .rsp - 8 = cell (entry.regs .rsp) (r.slots.size + 16) := by
      rw [h.rsp_eq]
      unfold cell
      bv_omega
    change (s.mem.writeWord (s.regs .rsp - 8) address).byte y = _
    rw [hcell, Memory.writeWord]
    exact byte_write_cell (by omega) (by simp) (by omega)
  refine ⟨⟨target, s.pushed address, x.callees history target (s.pushed address)⟩, hmakes, rfl, ?_,
    hpushed, ?_, ?_, ?_⟩
  · intro reg hreg
    rw [State.regs_pushed, if_neg hreg]
  · intro y hy hargs
    dsimp only
    rw [hnormal.byte_eq history target _ hentered y hy hargs, hpushed y (.inl hy)]
  · dsimp only
    rw [hnormal.rbx_eq history target _ hentered]
    rfl
  · refine h.congr hsize ?_ ?_ (fun y hy => ?_) fun y hy hm => ?_
    · dsimp only
      rw [hnormal.rbp_eq history target _ hentered]
      rfl
    · dsimp only
      rw [hnormal.rsp_eq history target _ hentered]
      change s.regs .rsp - 8 + 8 = _
      exact BitVec.sub_add_cancel _ _
    · unfold Slots.Guarded at hy
      dsimp only
      rw [hnormal.byte_eq history target _ hentered y (by omega) ?_, hpushed y (.inl (by omega))]
      unfold Slots.InArgs
      omega
    · exact hnormal.mapped history target _ hentered y hy hm

/-- A trampoline writes to the return value and to the context without harm. -/
theorem store (h : Stands r entry s) (hsize : r.slots.size ≤ 112) {n : Nat} (reg : Reg)
    (hn : n = r.slots.context ∨ (n = 8 ∧ r.slots.keepsReturn = true)) :
    ∃ t, (Instr.store .double .rbp reg (below n)).exec s = some (t, .next) ∧ t.regs = s.regs ∧
      t.mem.readWord (cell (entry.regs .rsp) n) = s.regs reg ∧
      (∀ a, X64.below (entry.regs .rsp) a < n ∨ n + 8 ≤ X64.below (entry.regs .rsp) a →
        t.mem.byte a = s.mem.byte a) ∧
      Untouched r.slots (entry.regs .rsp) s.mem t.mem ∧ Stands r entry t := by
  obtain ⟨hargs, hcount, haddress, hcontext, hle, _⟩ := r.slots_order
  have hplace : 8 ≤ n ∧ n ≤ r.slots.size ∧
      (n + 8 ≤ 8 + r.slots.kept ∨ r.slots.address + 16 ≤ n) := by
    rcases hn with rfl | ⟨rfl, hk⟩
    · omega
    · have hkept := Slots.kept_eq hk
      omega
  have hother : ∀ a, X64.below (entry.regs .rsp) a < n ∨ n + 8 ≤ X64.below (entry.regs .rsp) a →
      (s.mem.write (cell (entry.regs .rsp) n) (Bytes.littleEndian Width.double.bytes
        (s.regs reg).toNat)).byte a = s.mem.byte a :=
    fun a ha => byte_write_cell (by omega) (by simp [Width.bytes]) ha
  refine ⟨_, exec_store_below .double reg h.rbp_eq (by omega) fun a _ hhi => h.mapped a (by omega),
    rfl, Memory.readWord_writeWord_self, hother, fun a ha => hother a ?_,
    h.congr hsize rfl rfl (fun a ha => hother a ?_) fun a _ hm => hm⟩
  · unfold Slots.InArgs at ha
    omega
  · unfold Slots.Guarded at ha
    omega

end Stands

/-- An argument: its register, its width and the depth of its slot. -/
structure ArgCell where
  /-- The register. -/
  reg : Reg
  /-- The width. -/
  width : Width
  /-- Depth of the slot. -/
  depth : Nat

/-- The arguments of a request. -/
def argCells (r : Request) : List ArgCell :=
  (argRegisters.zip r.args).zipIdx.map fun ((reg, size), i) =>
    ⟨reg, argWidth size, r.slots.args - 8 * i⟩

/-- The value of an argument in memory. -/
def ArgCell.value (c : ArgCell) (sp : BitVec 64) (m : Memory) : BitVec 64 :=
  BitVec.ofNat 64 (Bytes.value (m.read (cell sp c.depth) c.width.bytes))

/-- Two arguments have registers and slots of their own. -/
def ArgCell.Apart (c d : ArgCell) : Prop := c.reg ≠ d.reg ∧ d.depth + 8 ≤ c.depth

section Arguments

variable {r : Request}

/-- The argument registers are stored one after the other. -/
theorem saveArgs_eq (r : Request) :
    saveArgs r = (argCells r).map fun c => .store c.width .rbp c.reg (below c.depth) := by
  unfold saveArgs argSlots argCells
  rw [List.map_map, List.map_map]
  rfl

/-- The argument registers are loaded one after the other. -/
theorem restoreArgs_eq (r : Request) :
    restoreArgs r = (argCells r).map fun c => .load c.width c.reg .rbp (below c.depth) := by
  unfold restoreArgs argSlots argCells
  rw [List.map_map, List.map_map]
  rfl

/-- An argument has one of the argument registers and lies among the arguments. -/
theorem mem_argCells {c : ArgCell} (h : c ∈ argCells r) :
    c.reg ∈ argRegisters ∧ 8 + r.slots.kept ≤ c.depth ∧ c.depth ≤ r.slots.args := by
  obtain ⟨⟨⟨reg, size⟩, i⟩, hmem, rfl⟩ := List.mem_map.mp h
  obtain ⟨hreg, hsize⟩ := List.getElem?_zip_eq_some.mp (List.mk_mem_zipIdx_iff_getElem?.mp hmem)
  obtain ⟨hi, _⟩ := List.getElem?_eq_some_iff.mp hsize
  have hargs := r.slots_order.1
  exact ⟨List.mem_of_getElem? hreg, by dsimp only; omega, by dsimp only; omega⟩

/-- The arguments have registers and slots of their own. -/
theorem pairwise_argCells (r : Request) : (argCells r).Pairwise ArgCell.Apart := by
  have hnodup : argRegisters.Nodup := by decide
  have hargs := r.slots_order.1
  rw [List.pairwise_iff_getElem]
  intro i j hi hj hij
  simp only [argCells, List.length_map, List.length_zipIdx, List.length_zip] at hi hj
  simp only [argCells, List.getElem_map, List.getElem_zipIdx, List.getElem_zip, ArgCell.Apart]
  exact ⟨List.pairwise_iff_getElem.mp hnodup i j _ _ hij, by omega⟩

variable {s : State} {sp : BitVec 64} {cells : List ArgCell}

/-- Arguments that are stored in slots of their own are in memory, and nothing else changed. -/
theorem exec_saves (hapart : cells.Pairwise ArgCell.Apart) (hdepth : ∀ c ∈ cells, c.depth < 2 ^ 31)
    (hrbp : s.regs .rbp = sp - 8)
    (hmapped : ∀ c ∈ cells, ∀ a, c.depth ≤ X64.below sp a → X64.below sp a < c.depth + 8 →
      s.mem.mapped a = true) :
    ∃ t, execAll (cells.map fun c => .store c.width .rbp c.reg (below c.depth)) s = some t ∧
      t.regs = s.regs ∧ t.mem.mapped = s.mem.mapped ∧
      (∀ c ∈ cells, t.mem.read (cell sp c.depth) c.width.bytes =
        Bytes.littleEndian c.width.bytes (s.regs c.reg).toNat) ∧
      ∀ a, (∀ c ∈ cells, X64.below sp a < c.depth ∨ c.depth + 8 ≤ X64.below sp a) →
        t.mem.byte a = s.mem.byte a := by
  induction cells generalizing s with
  | nil => exact ⟨s, rfl, rfl, rfl, by simp, fun _ _ => rfl⟩
  | cons c rest ih =>
    obtain ⟨hfirst, hapart⟩ := List.pairwise_cons.mp hapart
    have hc := hdepth c (by simp)
    have hwidth := bytes_le c.width
    have hstore := exec_store_below c.width c.reg hrbp hc (hmapped c (by simp))
    obtain ⟨t, ht, hregs, hm, hread, hother⟩ := @ih (s.setMem (s.mem.write (cell sp c.depth)
      (Bytes.littleEndian c.width.bytes (s.regs c.reg).toNat))) hapart
      (fun d hd => hdepth d (by simp [hd])) hrbp (fun d hd => hmapped d (by simp [hd]))
    refine ⟨t, by rw [List.map_cons, execAll_next hstore]; exact ht, hregs, hm, ?_, ?_⟩
    · intro d hd
      rcases List.mem_cons.mp hd with rfl | hd
      · -- the slots behind are elsewhere
        have hkeep : t.mem.read (cell sp d.depth) d.width.bytes =
            (s.mem.write (cell sp d.depth) (Bytes.littleEndian d.width.bytes
              (s.regs d.reg).toNat)).read (cell sp d.depth) d.width.bytes := by
          refine Memory.read_congr hwidth fun x hx => hother x fun e he => ?_
          have hin := (@sub_cell_lt sp x d.depth (by omega)).mp (by omega)
          have hbelow := (hfirst e he).2
          omega
        have hback := @Memory.read_write_self s.mem (cell sp d.depth)
          (Bytes.littleEndian d.width.bytes (s.regs d.reg).toNat) (by simp [hwidth])
        rw [Bytes.length_littleEndian] at hback
        rw [hkeep, hback]
      · exact hread d hd
    · intro a ha
      rw [hother a fun d hd => ha d (by simp [hd])]
      exact byte_write_cell (by omega) (by simp [hwidth]) (ha c (by simp))

/-- Argument registers that are loaded from their slots hold what memory holds, and nothing else
changed. -/
theorem exec_restores (hapart : cells.Pairwise ArgCell.Apart)
    (hdepth : ∀ c ∈ cells, c.depth < 2 ^ 31 ∧ c.reg ≠ .rbp) (hrbp : s.regs .rbp = sp - 8)
    (hmapped : ∀ c ∈ cells, ∀ a, c.depth ≤ X64.below sp a → X64.below sp a < c.depth + 8 →
      s.mem.mapped a = true) :
    ∃ t, execAll (cells.map fun c => .load c.width c.reg .rbp (below c.depth)) s = some t ∧
      t.mem = s.mem ∧ (∀ c ∈ cells, t.regs c.reg = c.value sp s.mem) ∧
      ∀ reg, (∀ c ∈ cells, c.reg ≠ reg) → t.regs reg = s.regs reg := by
  induction cells generalizing s with
  | nil => exact ⟨s, rfl, rfl, by simp, fun _ _ => rfl⟩
  | cons c rest ih =>
    obtain ⟨hfirst, hapart⟩ := List.pairwise_cons.mp hapart
    obtain ⟨hc, hne⟩ := hdepth c (by simp)
    have hload : (Instr.load c.width c.reg .rbp (below c.depth)).exec s =
        some (s.setReg c.reg (c.value sp s.mem), .next) := by
      rw [Instr.exec, load_below c.width hrbp hc (hmapped c (by simp))]
      rfl
    obtain ⟨t, ht, hm, hvalues, hother⟩ := @ih (s.setReg c.reg (c.value sp s.mem)) hapart
      (fun d hd => hdepth d (by simp [hd])) (by rw [State.regs_setReg, if_neg hne.symm, hrbp])
      (fun d hd => hmapped d (by simp [hd]))
    refine ⟨t, by rw [List.map_cons, execAll_next hload]; exact ht, hm, ?_, ?_⟩
    · intro d hd
      rcases List.mem_cons.mp hd with rfl | hd
      · rw [hother d.reg fun e he => (hfirst e he).1.symm, State.regs_setReg, if_pos rfl]
      · exact hvalues d hd
    · intro reg hreg
      rw [hother reg fun d hd => hreg d (by simp [hd]), State.regs_setReg,
        if_neg (hreg c (by simp)).symm]

end Arguments

/-- Arguments that are untouched have the same values. -/
theorem Untouched.value_eq {r : Request} {sp : BitVec 64} {m m' : Memory} {c : ArgCell}
    (h : Untouched r.slots sp m m') (hsize : r.slots.size ≤ 112) (hc : c ∈ argCells r) :
    c.value sp m' = c.value sp m := by
  obtain ⟨_, hcount, haddress, hcontext, hle, _⟩ := r.slots_order
  obtain ⟨_, hlow, hhigh⟩ := mem_argCells hc
  have hwidth := bytes_le c.width
  have hread : m'.read (cell sp c.depth) c.width.bytes =
      m.read (cell sp c.depth) c.width.bytes := by
    refine Memory.read_congr hwidth fun x hx => h x (.inr ?_)
    have hin := (@sub_cell_lt sp x c.depth (by omega)).mp (by omega)
    unfold Slots.InArgs
    omega
  rw [ArgCell.value, hread, ArgCell.value]

/-- Reloading the argument registers can be read back. -/
theorem encodable_restoreArgs (r : Request) : Encodable (restoreArgs r) := by
  rw [restoreArgs_eq]
  intro i hi
  obtain ⟨c, _, rfl⟩ := List.mem_map.mp hi
  exact (by decide : Reg.rbp.code ≠ 4)

/-- In a standing frame the argument registers are loaded from their slots, and nothing else
changes. -/
theorem Stands.exec_restoreArgs {r : Request} {entry s : State} (h : Stands r entry s)
    (hsize : r.slots.size ≤ 112) :
    ∃ t, execAll (restoreArgs r) s = some t ∧ t.mem = s.mem ∧ Stands r entry t ∧
      ∀ c ∈ argCells r, t.regs c.reg = c.value (entry.regs .rsp) s.mem := by
  obtain ⟨_, hcount, haddress, hcontext, hle, _⟩ := r.slots_order
  have hne : ∀ reg ∈ argRegisters, reg ≠ .rbp ∧ reg ≠ .rsp := by decide
  obtain ⟨t, ht, hmem, hvalues, hother⟩ := exec_restores (pairwise_argCells r)
    (fun c hc => by
      obtain ⟨hreg, _, _⟩ := mem_argCells hc
      exact ⟨by omega, (hne c.reg hreg).1⟩) h.rbp_eq
    (fun c hc a _ hhi => by
      have := mem_argCells hc
      exact h.mapped a (by omega))
  have hpointers : ∀ reg, reg = .rbp ∨ reg = .rsp → t.regs reg = s.regs reg := fun reg hreg =>
    hother reg fun c hc heq => by
      have := hne c.reg (mem_argCells hc).1
      rw [heq] at this
      exact hreg.elim this.1 this.2
  refine ⟨t, by rw [restoreArgs_eq]; exact ht, hmem, ?_, hvalues⟩
  exact h.of_mem_eq hsize (hpointers _ (.inl rfl)) (hpointers _ (.inr rfl)) hmem

section Opening

variable {r : Request} {entry s : State} {sp : BitVec 64} {n : Nat}

/-- Arithmetic on a whole register and an immediate changes that register only. -/
theorem exec_wideImm (s : State) (op : AluOp) (reg : Reg) (v : Int32) :
    ∃ t, (aluWithImm op .wide reg v).exec s = some (t, .next) ∧
      t.regs reg = op.apply (s.regs reg) (BitVec.ofInt 64 v.toInt) ∧
      (∀ x, x ≠ reg → t.regs x = s.regs x) ∧ t.mem = s.mem := by
  refine ⟨_, exec_aluWithImm op reg v, ?_, fun x hx => ?_, rfl⟩
  · simp [State.alu]
  · simp [State.alu, hx]

/-- A word stored from `rax` to a depth below the frame pointer, and nothing else changed. -/
theorem exec_store_rax (hrbp : s.regs .rbp = sp - 8) (hn : n < 2 ^ 31)
    (hm : ∀ a, n ≤ X64.below sp a → X64.below sp a < n + 8 → s.mem.mapped a = true) :
    ∃ t, (Instr.store .double .rbp .rax (below n)).exec s = some (t, .next) ∧ t.regs = s.regs ∧
      t.mem.mapped = s.mem.mapped ∧ t.mem.readWord (cell sp n) = s.regs .rax ∧
      ∀ a, X64.below sp a < n ∨ n + 8 ≤ X64.below sp a → t.mem.byte a = s.mem.byte a :=
  ⟨_, exec_store_below .double .rax hrbp hn hm, rfl, rfl, Memory.readWord_writeWord_self,
    fun _ ha => byte_write_cell (by omega) (by simp [Width.bytes]) ha⟩

/-- The number of arguments is stored. -/
theorem exec_count (v : UInt64) (hrbp : s.regs .rbp = sp - 8) (hn : n < 2 ^ 31)
    (hm : ∀ a, n ≤ X64.below sp a → X64.below sp a < n + 8 → s.mem.mapped a = true) :
    ∃ t, execAll [loadImm64 .rax v, .store .double .rbp .rax (below n)] s = some t ∧
      (∀ reg, reg ≠ .rax → t.regs reg = s.regs reg) ∧ t.mem.mapped = s.mem.mapped ∧
      t.mem.readWord (cell sp n) = v.toBitVec ∧
      ∀ a, X64.below sp a < n ∨ n + 8 ≤ X64.below sp a → t.mem.byte a = s.mem.byte a := by
  obtain ⟨u, hload, hvalue, hregs, hmem⟩ := exec_loadImm64 s .rax v
  obtain ⟨t, hstore, hregs', hmapped, hword, hother⟩ := @exec_store_rax u sp n
    (by rw [hregs .rbp (by decide), hrbp]) hn (by rw [hmem]; exact hm)
  refine ⟨t, by rw [execAll_next hload, execAll_next hstore]; rfl, fun reg hreg => ?_, ?_, ?_,
    fun a ha => ?_⟩
  · rw [hregs', hregs reg hreg]
  · rw [hmapped, hmem]
  · rw [hword, hvalue]
  · rw [hother a ha, hmem]

/-- The address of the function is stored: it is before the return address by the size of the call
at its start. -/
theorem exec_address (hrbp : s.regs .rbp = sp - 8) (hn : n < 2 ^ 31)
    (hm : ∀ a, n ≤ X64.below sp a → X64.below sp a < n + 8 → s.mem.mapped a = true)
    (hreturn : ∀ a, (a - sp).toNat < 8 → s.mem.mapped a = true) :
    ∃ t, execAll [.load .double .rax .rbp (.byte 8),
        aluWithImm .sub .wide .rax (Int32.ofNat siteSize),
        .store .double .rbp .rax (below n)] s = some t ∧
      (∀ reg, reg ≠ .rax → t.regs reg = s.regs reg) ∧ t.mem.mapped = s.mem.mapped ∧
      t.mem.readWord (cell sp n) = s.mem.readWord sp - 5 ∧
      ∀ a, X64.below sp a < n ∨ n + 8 ≤ X64.below sp a → t.mem.byte a = s.mem.byte a := by
  have haddress : s.address .rbp (SignedField.byte 8).value = sp := by
    rw [State.address, hrbp]
    exact BitVec.sub_add_cancel _ _
  have hload : (Instr.load .double .rax .rbp (.byte 8)).exec s =
      some (s.setReg .rax (s.mem.readWord sp), .next) := by
    rw [Instr.exec, haddress, State.load,
      if_pos (Memory.allows_of_mapped (bytes_le .double) hreturn)]
    rfl
  obtain ⟨u, hsub, hvalue, hregs, hmem⟩ :=
    exec_wideImm (s.setReg .rax (s.mem.readWord sp)) .sub .rax (Int32.ofNat siteSize)
  have hsame : ∀ reg, reg ≠ .rax → u.regs reg = s.regs reg := fun reg hreg => by
    rw [hregs reg hreg, State.regs_setReg, if_neg hreg]
  obtain ⟨t, hstore, hregs', hmapped, hword, hother⟩ := @exec_store_rax u sp n
    (by rw [hsame .rbp (by decide), hrbp]) hn (by rw [hmem]; exact hm)
  refine ⟨t, by rw [execAll_next hload, execAll_next hsub, execAll_next hstore]; rfl,
    fun reg hreg => ?_, ?_, ?_, fun a ha => ?_⟩
  · rw [hregs', hsame reg hreg]
  · rw [hmapped, hmem]
    rfl
  · rw [hword, hvalue, State.regs_setReg, if_pos rfl]
    rfl
  · rw [hother a ha, hmem]
    rfl

/-- The first instructions build the frame: the caller's frame pointer above it, the caller's
register at its end. -/
theorem exec_base (hsize : r.slots.size ≤ 112)
    (hroom : ∀ a, X64.below (entry.regs .rsp) a < r.slots.size + 24 → entry.mem.mapped a = true) :
    ∃ s, execAll [.push .rbp, .mov .wide .rbp .rsp,
        aluWithImm .sub .wide .rsp (Int32.ofNat r.slots.size), .push .rbx] entry = some s ∧
      s.regs .rbp = entry.regs .rsp - 8 ∧
      s.regs .rsp = entry.regs .rsp - BitVec.ofNat 64 (r.slots.size + 16) ∧
      (∀ reg, reg ≠ .rsp → reg ≠ .rbp → s.regs reg = entry.regs reg) ∧
      s.mem.mapped = entry.mem.mapped ∧
      s.mem.readWord (cell (entry.regs .rsp) 0) = entry.regs .rbp ∧
      s.mem.readWord (cell (entry.regs .rsp) (r.slots.size + 8)) = entry.regs .rbx ∧
      ∀ a, 8 ≤ X64.below (entry.regs .rsp) a → X64.below (entry.regs .rsp) a < r.slots.size + 8 ∨
        r.slots.size + 16 ≤ X64.below (entry.regs .rsp) a → s.mem.byte a = entry.mem.byte a := by
  have hsigned : BitVec.ofInt 64 (Int32.ofNat r.slots.size).toInt =
      BitVec.ofNat 64 r.slots.size := by
    rw [Int32.toInt_ofNat_of_lt (by omega), BitVec.ofInt_natCast]
  have hfirst : (Instr.push .rbp).exec entry = some (entry.pushed (entry.regs .rbp), .next) := by
    rw [Instr.exec, State.push_eq fun a ha => hroom a (by omega)]
    rfl
  obtain ⟨u, hsub, hrsp, hregs, hmem⟩ := exec_wideImm
    ((entry.pushed (entry.regs .rbp)).put .wide .rbp
      ((entry.pushed (entry.regs .rbp)).value .wide .rsp)) .sub .rsp (Int32.ofNat r.slots.size)
  have hrsp : u.regs .rsp = entry.regs .rsp - BitVec.ofNat 64 (r.slots.size + 8) := by
    rw [hrsp, hsigned]
    simp only [AluOp.apply, State.regs_put, State.regs_pushed, reduceCtorEq, if_false, if_true]
    bv_omega
  have hrbp : u.regs .rbp = entry.regs .rsp - 8 := by
    rw [hregs .rbp (by decide)]
    simp
  have hother : ∀ reg, reg ≠ .rsp → reg ≠ .rbp → u.regs reg = entry.regs reg := by
    intro reg h1 h2
    rw [hregs reg h1]
    simp [h1, h2]
  have hmem : u.mem = entry.mem.writeWord (cell (entry.regs .rsp) 0) (entry.regs .rbp) := by
    rw [hmem]
    simp [State.pushed, cell]
  have hlast : (Instr.push .rbx).exec u = some (u.pushed (u.regs .rbx), .next) := by
    rw [Instr.exec, State.push_eq fun a ha => ?_]
    · rfl
    · rw [hrsp, below_sub (by omega)] at ha
      rw [hmem]
      exact hroom a (by split at ha <;> omega)
  have hcell : u.regs .rsp - 8 = cell (entry.regs .rsp) (r.slots.size + 8) := by
    rw [hrsp]
    unfold cell
    bv_omega
  have hfinal : (u.pushed (u.regs .rbx)).mem = u.mem.writeWord
      (cell (entry.regs .rsp) (r.slots.size + 8)) (entry.regs .rbx) := by
    rw [← hcell, ← hother .rbx (by decide) (by decide)]
    rfl
  refine ⟨u.pushed (u.regs .rbx), ?_, ?_, ?_, ?_, ?_, ?_, ?_, ?_⟩
  · rw [execAll_next hfirst, execAll_next rfl, execAll_next hsub, execAll_next hlast]
    rfl
  · rw [State.regs_pushed, if_neg (by decide), hrbp]
  · rw [State.regs_pushed, if_pos rfl, hrsp]
    exact sub_ofNat_sub _ _ 8
  · intro reg h1 h2
    rw [State.regs_pushed, if_neg h1, hother reg h1 h2]
  · rw [hfinal, hmem]
    rfl
  · rw [hfinal, hmem, Memory.writeWord]
    exact (readWord_cell_congr (by omega) fun a _ hhi =>
      byte_write_cell (by omega) (by simp) (by omega)).trans Memory.readWord_writeWord_self
  · rw [hfinal]
    exact Memory.readWord_writeWord_self
  · intro a h1 h2
    rw [hfinal, hmem, Memory.writeWord, Memory.writeWord,
      byte_write_cell (by omega) (by simp) (by omega),
      byte_write_cell (by omega) (by simp) (by omega)]

/-- What the opening does to store the address of the function, if it is asked for. -/
def storeAddress (r : Request) : List Instr :=
  if r.flags.storeAddress then
    [.load .double .rax .rbp (.byte 8), aluWithImm .sub .wide .rax (Int32.ofNat siteSize),
      .store .double .rbp .rax (below r.slots.address)]
  else []

/-- The opening in parts. -/
theorem opening_eq (r : Request) :
    opening r = [.push .rbp, .mov .wide .rbp .rsp,
        aluWithImm .sub .wide .rsp (Int32.ofNat r.slots.size), .push .rbx] ++
      ([loadImm64 .rax (UInt64.ofNat r.args.length),
        .store .double .rbp .rax (below r.slots.count)] ++
      (storeAddress r ++ saveArgs r)) := by
  unfold opening storeAddress
  simp only [List.cons_append, List.nil_append]

/-- The opening can be read back. -/
theorem encodable_opening (r : Request) : Encodable (opening r) := by
  have hbase : Reg.rbp.code ≠ 4 := by decide
  have hstored : Encodable (storeAddress r) := by
    unfold storeAddress
    split
    · simp only [encodable_cons, hasOwnEncoding_aluWithImm, encodable_nil]
      exact ⟨hbase, trivial, hbase, trivial⟩
    · exact encodable_nil
  have hsaves : Encodable (saveArgs r) := by
    rw [saveArgs_eq]
    intro i hi
    obtain ⟨c, _, rfl⟩ := List.mem_map.mp hi
    exact hbase
  rw [opening_eq]
  simp only [encodable_append, encodable_cons, hasOwnEncoding_aluWithImm, hasOwnEncoding_loadImm64,
    encodable_nil, hstored, hsaves]
  exact ⟨⟨trivial, trivial, trivial, trivial, trivial⟩, ⟨trivial, hbase, trivial⟩, trivial, trivial⟩

/-- The address is stored if it is asked for. -/
theorem exec_storeAddress (hsize : r.slots.size ≤ 112) (hrbp : s.regs .rbp = sp - 8)
    (hm : ∀ a, X64.below sp a < r.slots.size + 24 → s.mem.mapped a = true)
    (hreturn : r.flags.storeAddress = true → ∀ a, (a - sp).toNat < 8 → s.mem.mapped a = true) :
    ∃ t, execAll (storeAddress r) s = some t ∧ (∀ reg, reg ≠ .rax → t.regs reg = s.regs reg) ∧
      t.mem.mapped = s.mem.mapped ∧
      (r.flags.storeAddress = true →
        t.mem.readWord (cell sp r.slots.address) = s.mem.readWord sp - 5) ∧
      ∀ a, X64.below sp a < r.slots.count + 8 ∨ r.slots.address + 8 ≤ X64.below sp a →
        t.mem.byte a = s.mem.byte a := by
  obtain ⟨hslots, hcount, haddress, hcontext, hle, _⟩ := r.slots_order
  unfold storeAddress
  split
  · rename_i hstored
    rw [if_pos hstored] at haddress
    obtain ⟨t, ht, hregs, hmapped, hword, hbyte⟩ := exec_address hrbp
      (show r.slots.address < 2 ^ 31 by omega) (fun a _ hhi => hm a (by omega)) (hreturn hstored)
    exact ⟨t, ht, hregs, hmapped, fun _ => hword, fun a ha => hbyte a (by omega)⟩
  · rename_i hstored
    exact ⟨s, rfl, fun _ _ => rfl, rfl, fun h => absurd h hstored, fun _ _ => rfl⟩

/-- Behind the opening the frame stands, the arguments are in their slots, and nothing outside the
frame has changed. -/
theorem exec_opening (hargs : r.args.length ≤ 6)
    (hroom : ∀ a, X64.below (entry.regs .rsp) a < r.slots.size + 24 → entry.mem.mapped a = true)
    (hreturn : r.flags.storeAddress = true →
      ∀ a, (a - entry.regs .rsp).toNat < 8 → entry.mem.mapped a = true) :
    ∃ s, execAll (opening r) entry = some s ∧ Stands r entry s ∧
      (∀ c ∈ argCells r, c.value (entry.regs .rsp) s.mem =
        BitVec.ofNat 64 ((entry.regs c.reg).toNat % 2 ^ (8 * c.width.bytes))) ∧
      (∀ a, r.slots.size + 16 ≤ X64.below (entry.regs .rsp) a → s.mem.byte a = entry.mem.byte a) ∧
      (r.slots.keepsReturn = true → s.mem.readWord (cell (entry.regs .rsp) 8) =
        entry.mem.readWord (cell (entry.regs .rsp) 8)) := by
  have hsize := Request.slots_size_le hargs
  obtain ⟨hslots, hcount, haddress, hcontext, hle, _⟩ := r.slots_order
  obtain ⟨s1, h1, hrbp1, hrsp1, hregs1, hmapped1, hbase, hsaved, hbyte1⟩ := exec_base hsize hroom
  obtain ⟨s2, h2, hregs2, hmapped2, hnumber, hbyte2⟩ := exec_count (UInt64.ofNat r.args.length)
    hrbp1 (show r.slots.count < 2 ^ 31 by omega)
    fun a _ hhi => by rw [hmapped1]; exact hroom a (by omega)
  have hrbp2 : s2.regs .rbp = entry.regs .rsp - 8 := by rw [hregs2 .rbp (by decide), hrbp1]
  obtain ⟨s3, h3, hregs3, hmapped3, hword, hbyte3⟩ := exec_storeAddress hsize hrbp2
    (by rw [hmapped2, hmapped1]; exact hroom) (by rw [hmapped2, hmapped1]; exact hreturn)
  have hrbp3 : s3.regs .rbp = entry.regs .rsp - 8 := by rw [hregs3 .rbp (by decide), hrbp2]
  obtain ⟨s4, h4, hregs4, hmapped4, hread, hbyte4⟩ := exec_saves (pairwise_argCells r)
    (fun c hc => by have := mem_argCells hc; omega) hrbp3
    (fun c hc a hlo hhi => by
      have := mem_argCells hc
      rw [hmapped3, hmapped2, hmapped1]
      exact hroom a (by omega))
  -- the four parts write to depths of their own
  have hkeep4 : ∀ a, X64.below (entry.regs .rsp) a < 8 + r.slots.kept ∨
      r.slots.args + 8 ≤ X64.below (entry.regs .rsp) a → s4.mem.byte a = s3.mem.byte a :=
    fun a ha => hbyte4 a fun c hc => by have := mem_argCells hc; omega
  have houter : ∀ a, r.slots.size + 16 ≤ X64.below (entry.regs .rsp) a →
      s2.mem.byte a = entry.mem.byte a := fun a ha => by
    rw [hbyte2 a (by omega), hbyte1 a (by omega) (by omega)]
  have hreturned : s2.mem.readWord (entry.regs .rsp) = entry.mem.readWord (entry.regs .rsp) := by
    refine Memory.readWord_congr fun a ha => houter a ?_
    unfold X64.below
    bv_omega
  have harg : ∀ c ∈ argCells r, s3.regs c.reg = entry.regs c.reg := fun c hc => by
    have hne : ∀ reg ∈ argRegisters, reg ≠ .rax ∧ reg ≠ .rsp ∧ reg ≠ .rbp := by decide
    obtain ⟨hrax, hrsp, hrbp⟩ := hne c.reg (mem_argCells hc).1
    rw [hregs3 _ hrax, hregs2 _ hrax, hregs1 _ hrsp hrbp]
  refine ⟨s4, ?_, ?_, fun c hc => ?_, fun a ha => ?_, fun hk => ?_⟩
  · rw [opening_eq, execAll_append, h1, Option.bind_some, execAll_append, h2, Option.bind_some,
      execAll_append, h3, Option.bind_some, saveArgs_eq, h4]
  · constructor
    case rbp_eq => rw [hregs4, hrbp3]
    case rsp_eq => rw [hregs4, hregs3 _ (by decide), hregs2 _ (by decide), hrsp1]
    case base_eq =>
      rw [← hbase]
      refine readWord_cell_congr (by omega) fun a _ hhi => ?_
      rw [hkeep4 a (by omega), hbyte3 a (by omega), hbyte2 a (by omega)]
    case saved_eq =>
      rw [← hsaved]
      refine readWord_cell_congr (by omega) fun a hlo hhi => ?_
      rw [hkeep4 a (by omega), hbyte3 a (by omega), hbyte2 a (by omega)]
    case count_eq =>
      have hvalue : (UInt64.ofNat r.args.length).toBitVec = BitVec.ofNat 64 r.args.length := rfl
      rw [← hvalue, ← hnumber]
      refine readWord_cell_congr (by omega) fun a hlo hhi => ?_
      rw [hkeep4 a (by omega), hbyte3 a (by omega)]
    case address_eq =>
      intro hstored
      rw [← hreturned, ← hword hstored]
      exact readWord_cell_congr (by omega) fun a hlo hhi => hkeep4 a (by omega)
    case mapped =>
      intro a ha
      rw [hmapped4, hmapped3, hmapped2, hmapped1]
      exact hroom a ha
  · rw [ArgCell.value, hread c hc, Bytes.value_littleEndian, harg c hc, Nat.one_shiftLeft]
  · rw [hkeep4 a (by omega), hbyte3 a (by omega), houter a ha]
  · have hkept := Slots.kept_eq hk
    refine readWord_cell_congr (by omega) fun a hlo hhi => ?_
    rw [hkeep4 a (by omega), hbyte3 a (by omega), hbyte2 a (by omega),
      hbyte1 a (by omega) (by omega)]

end Opening

section Closing

variable {r : Request} {entry s : State}

/-- Load the return value, if it is kept. -/
def loadReturn (r : Request) : List Instr :=
  if r.slots.keepsReturn then [.load .double .rax .rbp returnSlot] else []

/-- Drop the return address, if the trampoline returns to the caller of the function. -/
def dropReturn (r : Request) : List Instr :=
  if r.flags.skipFrame then [aluWithImm .add .wide .rsp 8] else []

/-- Load the return value and take the frame down, up to the return. -/
def takeDown (r : Request) : List Instr := loadReturn r ++ ([.pop .rbx, .leave] ++ dropReturn r)

/-- The closing takes the frame down and returns. -/
theorem closing_eq (r : Request) : closing r = takeDown r ++ [.ret] := by
  unfold closing takeDown loadReturn dropReturn
  simp only [List.append_assoc]

/-- The closing can be read back. -/
theorem encodable_closing (r : Request) : Encodable (closing r) := by
  have hload : Encodable (loadReturn r) := by
    unfold loadReturn
    split
    · exact encodable_cons.mpr ⟨(by decide : Reg.rbp.code ≠ 4), encodable_nil⟩
    · exact encodable_nil
  have hdrop : Encodable (dropReturn r) := by
    unfold dropReturn
    split
    · exact encodable_cons.mpr ⟨hasOwnEncoding_aluWithImm _ _ _ _, encodable_nil⟩
    · exact encodable_nil
  rw [closing_eq, takeDown]
  simp only [encodable_append, encodable_cons, encodable_nil, hload, hdrop]
  exact ⟨⟨trivial, ⟨trivial, trivial, trivial⟩, trivial⟩, trivial, trivial⟩

/-- The return value is loaded, if it is kept. -/
theorem Stands.exec_loadReturn (h : Stands r entry s) (hsize : r.slots.size ≤ 112) :
    ∃ t, execAll (loadReturn r) s = some t ∧ t.mem = s.mem ∧
      (r.slots.keepsReturn = true → t.regs .rax = s.mem.readWord (cell (entry.regs .rsp) 8)) ∧
      ∀ reg, reg ≠ .rax → t.regs reg = s.regs reg := by
  unfold loadReturn
  split
  · have hload : (Instr.load .double .rax .rbp returnSlot).exec s =
        some (s.setReg .rax (s.mem.readWord (cell (entry.regs .rsp) 8)), .next) := by
      rw [Instr.exec, ← below_eight, load_below .double h.rbp_eq (by decide)
        fun a _ hhi => h.mapped a (by omega)]
      rfl
    refine ⟨_, execAll_next hload [], rfl, fun _ => by simp, fun reg hreg => by simp [hreg]⟩
  · rename_i hk
    exact ⟨s, rfl, rfl, fun h => absurd h hk, fun _ _ => rfl⟩

/-- The return address is dropped, if the trampoline returns to the caller of the function. -/
theorem exec_dropReturn (r : Request) (s : State) :
    ∃ t, execAll (dropReturn r) s = some t ∧ t.mem = s.mem ∧
      t.regs .rsp = s.regs .rsp + (if r.flags.skipFrame then 8 else 0) ∧
      ∀ reg, reg ≠ .rsp → t.regs reg = s.regs reg := by
  unfold dropReturn
  split
  · obtain ⟨t, ht, hvalue, hregs, hmem⟩ := exec_wideImm s .add .rsp 8
    exact ⟨t, execAll_next ht [], hmem, hvalue, hregs⟩
  · exact ⟨s, rfl, rfl, (BitVec.add_zero _).symm, fun _ _ => rfl⟩

/-- The frame is taken down: the caller finds its registers and its stack, and the return value if
it is kept. -/
theorem Stands.exec_takeDown (h : Stands r entry s) (hsize : r.slots.size ≤ 112) :
    ∃ t, execAll (takeDown r) s = some t ∧ t.mem = s.mem ∧
      t.regs .rsp = entry.regs .rsp + (if r.flags.skipFrame then 8 else 0) ∧
      t.regs .rbp = entry.regs .rbp ∧ t.regs .rbx = entry.regs .rbx ∧
      (r.slots.keepsReturn = true → t.regs .rax = s.mem.readWord (cell (entry.regs .rsp) 8)) ∧
      ∀ reg ∈ argRegisters, t.regs reg = s.regs reg := by
  obtain ⟨u, hu, hmemu, hrax, hregsu⟩ := h.exec_loadReturn hsize
  have hrsp : u.regs .rsp = cell (entry.regs .rsp) (r.slots.size + 8) := by
    rw [hregsu .rsp (by decide), h.rsp_eq]
    unfold cell
    bv_omega
  have hrbp : u.regs .rbp = cell (entry.regs .rsp) 0 := by
    rw [hregsu .rbp (by decide), h.rbp_eq]
    unfold cell
    bv_omega
  have hpop : (Instr.pop .rbx).exec u = some (u.popped .rbx, .next) := by
    rw [Instr.exec, State.pop_eq fun a ha => ?_]
    · rfl
    · rw [hrsp] at ha
      rw [hmemu]
      exact mapped_cell (by omega) (fun a _ hhi => h.mapped a (by omega)) a ha
  have hbase : ((u.popped .rbx).setReg .rsp ((u.popped .rbx).regs .rbp)).regs .rsp =
      cell (entry.regs .rsp) 0 := by
    simp [State.popped, hrbp]
  have hleave : Instr.leave.exec (u.popped .rbx) =
      some (((u.popped .rbx).setReg .rsp ((u.popped .rbx).regs .rbp)).popped .rbp, .next) := by
    rw [Instr.exec, State.pop_eq fun a ha => ?_]
    · rfl
    · rw [hbase] at ha
      change u.mem.mapped a = true
      rw [hmemu]
      exact mapped_cell (by omega) (fun a _ hhi => h.mapped a (by omega)) a ha
  obtain ⟨t, ht, hmemt, hrspt, hregst⟩ :=
    exec_dropReturn r (((u.popped .rbx).setReg .rsp ((u.popped .rbx).regs .rbp)).popped .rbp)
  have hstack : (((u.popped .rbx).setReg .rsp ((u.popped .rbx).regs .rbp)).popped .rbp).regs .rsp =
      entry.regs .rsp := by
    have hsum : cell (entry.regs .rsp) 0 + 8 = entry.regs .rsp := by
      unfold cell
      bv_omega
    simp only [State.popped, State.regs_setReg, reduceCtorEq, if_false, if_true] at hbase ⊢
    rw [hbase, hsum]
  refine ⟨t, ?_, ?_, ?_, ?_, ?_, fun hk => ?_, fun reg hreg => ?_⟩
  · rw [takeDown, execAll_append, hu, Option.bind_some, List.cons_append, execAll_next hpop,
      List.cons_append, execAll_next hleave, List.nil_append, ht]
  · rw [hmemt]
    exact hmemu
  · rw [hrspt, hstack]
  · rw [hregst .rbp (by decide), State.popped, State.regs_setReg, if_pos rfl, hbase]
    change u.mem.readWord _ = _
    rw [hmemu, h.base_eq]
  · rw [hregst .rbx (by decide)]
    simp only [State.popped, State.regs_setReg, reduceCtorEq, if_false, if_true]
    rw [hrsp, hmemu, h.saved_eq]
  · rw [hregst .rax (by decide)]
    simp only [State.popped, State.regs_setReg, reduceCtorEq, if_false]
    exact hrax hk
  · have hne : ∀ reg ∈ argRegisters, reg ≠ .rax ∧ reg ≠ .rsp ∧ reg ≠ .rbp ∧ reg ≠ .rbx := by decide
    obtain ⟨h1, h2, h3, h4⟩ := hne reg hreg
    rw [hregst reg h2, ← hregsu reg h1]
    simp [State.popped, h2, h3, h4]

end Closing

end Trampoline

end NativeForge
