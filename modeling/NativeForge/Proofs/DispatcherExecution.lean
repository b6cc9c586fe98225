import NativeForge.Proofs.FragmentSizes
import NativeForge.Proofs.LoweredConditions
import NativeForge.Proofs.SearchTree

/-!
# Dispatchers dispatch

The processor runs through the code of a dispatcher along one path of the search tree, from
comparison to comparison, and leaves it by a direct jump if the address in `rdx` is one of the
targets and by a jump through `rdx` otherwise. On the way it fetches emitted instructions only, so
it never runs into the padding, and it changes the scratch register and the flags only.
-/

namespace NativeForge

open X64

/-- The address where the processor goes on behind an instruction that ends at an offset of code at
`base`. -/
def X64.Control.address (base : BitVec 64) (next : Nat) : Control → Option (BitVec 64)
  | .next => some (base + BitVec.ofNat 64 next)
  | .jump distance | .call distance =>
    some (base + BitVec.ofNat 64 next + BitVec.ofInt 64 distance)
  | .goto target => some target
  | .ret => none

namespace Dispatcher

section Pieces

variable {all pieces front back : List Piece} {offset : Nat} {i : Instr}

/-- The bytes of a sequence are those of its parts. -/
theorem pieceBytes_append (front back : List Piece) :
    pieceBytes (front ++ back) = pieceBytes front ++ pieceBytes back :=
  List.flatMap_append

/-- The size of no pieces. -/
@[simp]
theorem piecesSize_nil : piecesSize [] = 0 := rfl

/-- The size of a sequence is the size of its head and of its tail. -/
@[simp]
theorem piecesSize_cons (p : Piece) (rest : List Piece) :
    piecesSize (p :: rest) = p.bytes.length + piecesSize rest := rfl

/-- The size of a sequence is the size of its parts. -/
@[simp]
theorem piecesSize_append (front back : List Piece) :
    piecesSize (front ++ back) = piecesSize front + piecesSize back := by
  induction front with
  | nil => simp
  | cons p rest ih => rw [List.cons_append, piecesSize_cons, piecesSize_cons, ih, Nat.add_assoc]

/-- An instruction has the size of its encoding. -/
@[simp]
theorem length_bytes_instr (i : Instr) : (Piece.instr i).bytes.length = i.size := rfl

/-- Padding has its number of bytes. -/
@[simp]
theorem length_bytes_trap (count : Nat) : (Piece.trap count).bytes.length = count :=
  List.length_replicate

/-- The size of pieces is the number of their bytes. -/
theorem length_pieceBytes (pieces : List Piece) :
    (pieceBytes pieces).length = piecesSize pieces := by
  induction pieces with
  | nil => rfl
  | cons p rest ih => rw [pieceBytes, List.flatMap_cons, List.length_append, piecesSize_cons, ← ih,
      pieceBytes]

/-- Instructions as pieces have the size of their code. -/
@[simp]
theorem piecesSize_map_instr (code : List Instr) :
    piecesSize (code.map Piece.instr) = codeSize code := by
  induction code with
  | nil => rfl
  | cons i rest ih => rw [List.map_cons, piecesSize_cons, codeSize_cons, ih, length_bytes_instr]

/-- Pieces stand at an offset of a dispatcher. -/
def Placed (all : List Piece) (offset : Nat) (pieces : List Piece) : Prop :=
  ∃ front back, all = front ++ (pieces ++ back) ∧ piecesSize front = offset

/-- The first part of the pieces stands at the offset. -/
theorem Placed.left (h : Placed all offset (front ++ back)) : Placed all offset front := by
  obtain ⟨before, after, rfl, ho⟩ := h
  exact ⟨before, back ++ after, by rw [List.append_assoc], ho⟩

/-- The second part of the pieces stands behind the first part. -/
theorem Placed.right (h : Placed all offset (front ++ back)) :
    Placed all (offset + piecesSize front) back := by
  obtain ⟨before, after, rfl, ho⟩ := h
  refine ⟨before ++ front, after, by simp only [List.append_assoc], ?_⟩
  rw [piecesSize_append, ho]

/-- The pieces behind an instruction stand behind its bytes. -/
theorem Placed.tail (h : Placed all offset (.instr i :: back)) : Placed all (offset + i.size) back :=
  Placed.right (show Placed all offset ([.instr i] ++ back) from h)

/-- The bytes at the offset of an instruction are its encoding. -/
theorem Placed.hasCode (h : Placed all offset (.instr i :: back)) :
    HasCode (pieceBytes all) offset [i] := by
  obtain ⟨before, after, rfl, ho⟩ := h
  refine ⟨pieceBytes (back ++ after), ?_⟩
  rw [pieceBytes_append, ← ho, ← length_pieceBytes, List.drop_left, encodeAll_cons, encodeAll_nil,
    List.append_nil]
  rfl

/-- An emitted instruction stands at an offset, and the processor fetches it from the bytes. -/
structure Fetches (pieces : List Piece) (offset : Nat) (i : Instr) : Prop where
  /-- The instruction is one of the pieces. -/
  placed : Placed pieces offset [.instr i]
  /-- The bytes from the offset on are read as the instruction. -/
  fetch_eq : fetch (pieceBytes pieces) offset = some (i, offset + i.size)

/-- An instruction that stands at an offset is fetched from there. -/
theorem Placed.fetches (h : Placed all offset (.instr i :: back)) (hi : i.HasOwnEncoding) :
    Fetches all offset i :=
  ⟨Placed.left (show Placed all offset ([.instr i] ++ back) from h), h.hasCode.fetch_eq hi⟩

end Pieces

section Walks

variable {all back : List Piece} {a b c : Nat} {s t u : State} {i : Instr}

/-- The processor fetches an emitted instruction that does not leave the dispatcher: it goes on at
the next one, or it is a branch to an upper half. -/
def Stays (pieces : List Piece) (offset : Nat) (s : State) : Prop :=
  ∃ i, Fetches pieces offset i ∧
    ((∃ t, i.exec s = some (t, .next)) ∨ ∃ rel, i = .jcc .greater rel)

/-- The processor gets from one offset and state to others in the code of a dispatcher, and stays in
the dispatcher at every step. -/
def Walks (pieces : List Piece) (offset : Nat) (s : State) (offset' : Nat) (s' : State) : Prop :=
  ∃ count, run (pieceBytes pieces) count offset s = some (offset', s') ∧
    ∀ k, k < count → ∃ o t, run (pieceBytes pieces) k offset s = some (o, t) ∧ Stays pieces o t

namespace Walks

/-- The processor is where it is. -/
theorem refl : Walks all a s a s := ⟨0, rfl, fun k hk => absurd hk (Nat.not_lt_zero k)⟩

/-- Walks go on one behind the other. -/
theorem trans (h1 : Walks all a s b t) (h2 : Walks all b t c u) : Walks all a s c u := by
  obtain ⟨m, h1, hstay1⟩ := h1
  obtain ⟨n, h2, hstay2⟩ := h2
  have hrun : ∀ k, run (pieceBytes all) (m + k) a s = run (pieceBytes all) k b t := by
    intro k
    rw [run_add, h1]
    rfl
  refine ⟨m + n, by rw [hrun, h2], fun k hk => ?_⟩
  by_cases hkm : k < m
  · exact hstay1 k hkm
  · obtain ⟨j, rfl⟩ := Nat.exists_eq_add_of_le (Nat.le_of_not_lt hkm)
    rw [hrun]
    exact hstay2 j (by omega)

/-- One step that stays in the dispatcher. -/
theorem single (hs : Stays all a s) (h : step (pieceBytes all) a s = some (b, t)) :
    Walks all a s b t := by
  refine ⟨1, by rw [run, h]; rfl, fun k hk => ?_⟩
  obtain rfl : k = 0 := by omega
  exact ⟨a, s, rfl, hs⟩

/-- An instruction that goes on at the next one. -/
theorem next (h : Placed all a (.instr i :: back)) (hi : i.HasOwnEncoding)
    (hx : i.exec s = some (t, .next)) : Walks all a s (a + i.size) t := by
  refine single ⟨i, h.fetches hi, .inl ⟨t, hx⟩⟩ ?_
  rw [step, h.hasCode.fetch_eq hi]
  simp [hx]

/-- A branch to an upper half that is taken. -/
theorem branch {rel : SignedField} {target : Nat}
    (h : Placed all a (.instr (.jcc .greater rel) :: back))
    (hx : (Instr.jcc .greater rel).exec s = some (t, .jump rel.value))
    (ht : ((a + (Instr.jcc .greater rel).size : Nat) : Int) + rel.value = target) :
    Walks all a s target t := by
  refine single ⟨_, h.fetches trivial, .inr ⟨rel, rfl⟩⟩ ?_
  rw [step, h.hasCode.fetch_eq trivial]
  simp only [Option.bind_eq_bind, Option.bind_some, hx, ht]
  rw [if_pos (by omega)]
  rfl

/-- Instructions that go on one behind the other. -/
theorem execAll {code : List Instr} (h : Placed all a (code.map .instr)) (hi : Encodable code)
    (hx : X64.execAll code s = some t) : Walks all a s (a + codeSize code) t := by
  induction code generalizing a s with
  | nil =>
    cases hx
    exact refl
  | cons i rest ih =>
    rw [X64.execAll] at hx
    split at hx
    · rename_i u hu
      rw [codeSize_cons, ← Nat.add_assoc]
      exact (next h (hi i (List.mem_cons_self ..)) hu).trans
        (ih (Placed.tail h) (fun j hj => hi j (List.mem_cons_of_mem _ hj)) hx)
    · cases hx

end Walks

end Walks

/-- The scratch register and the flags are all that may differ. -/
structure Keeps (s t : State) : Prop where
  /-- The other registers are kept. -/
  regs_eq : ∀ r, r ≠ .r11 → t.regs r = s.regs r
  /-- Memory is kept. -/
  mem_eq : t.mem = s.mem

/-- Nothing differs. -/
theorem Keeps.refl {s : State} : Keeps s s := ⟨fun _ _ => rfl, rfl⟩

/-- What is kept twice is kept. -/
theorem Keeps.trans {s t u : State} (h1 : Keeps s t) (h2 : Keeps t u) : Keeps s u :=
  ⟨fun r hr => (h2.regs_eq r hr).trans (h1.regs_eq r hr), h2.mem_eq.trans h1.mem_eq⟩

section Comparison

/-- The readings of words. -/
def InWord (v : Int) : Prop := -(2 ^ 63) ≤ v ∧ v < 2 ^ 63

/-- A comparison can be read back. -/
theorem encodable_compareTo (v : Int) : Encodable (compareTo v) := by
  unfold compareTo
  split
  · exact encodable_cons.mpr ⟨trivial, encodable_nil⟩
  · exact encodable_cons.mpr
      ⟨hasOwnEncoding_loadImm64 _ _, encodable_cons.mpr ⟨trivial, encodable_nil⟩⟩

/-- A comparison sets the flags of the difference between `rdx` and the address. -/
theorem exec_compareTo (v : Int) (s : State) :
    ∃ t, execAll (compareTo v) s = some t ∧
      t.flags = some (.ofSub (s.regs .rdx) (BitVec.ofInt 64 v)) ∧ Keeps s t := by
  unfold compareTo
  split
  · rename_i hfits
    have hv : (SignedField.shortest (Int32.ofInt v)).value = v := by
      obtain ⟨hlo, hhi⟩ := fitsInt32_iff.mp hfits
      rw [value_shortest, Int32.toInt_ofInt_of_le (by omega) (by omega)]
    refine ⟨_, rfl, ?_, ⟨fun _ _ => rfl, rfl⟩⟩
    rw [State.flags_setFlags, State.value_wide, hv]
  · obtain ⟨t, ht, hv, hr, hm⟩ := exec_loadImm64 s .r11 (Int64.ofInt v).toUInt64
    refine ⟨t.setFlags (some (.ofSub (t.value .wide .rdx) (t.value .wide .r11))), ?_, ?_, hr, hm⟩
    · rw [execAll_next ht]
      rfl
    · rw [State.flags_setFlags, State.value_wide, State.value_wide, hv, hr .rdx (by decide)]
      rfl

variable (a : BitVec 64) {v : Int}

/-- A word is greater than an address, with sign, exactly if its reading is. -/
theorem holds_greater (hv : InWord v) :
    Cond.greater.holds (.ofSub a (BitVec.ofInt 64 v)) = decide (v < a.toInt) := by
  have h := @holds_ofSub .wide a (BitVec.ofInt 64 v) .signedGreater (by decide)
  refine h.trans ?_
  show (BitVec.ofInt 64 v).slt a = decide (v < a.toInt)
  rw [BitVec.slt, BitVec.toInt_ofInt_eq_self (by decide) hv.1 hv.2]

/-- A word is equal to an address exactly if its reading is. -/
theorem holds_equal (hv : InWord v) :
    Cond.equal.holds (.ofSub a (BitVec.ofInt 64 v)) = decide (a.toInt = v) := by
  have h := @holds_ofSub .wide a (BitVec.ofInt 64 v) .equal (by decide)
  refine h.trans ?_
  show (a == BitVec.ofInt 64 v) = decide (a.toInt = v)
  rw [Bool.eq_iff_iff, beq_iff_eq, decide_eq_true_iff, ← BitVec.toInt_inj,
    BitVec.toInt_ofInt_eq_self (by decide) hv.1 hv.2]

end Comparison

section Alignment

/-- Clearing the low four bits of a word rounds it down to a multiple of sixteen. -/
theorem toNat_and_not_fifteen {n : Nat} (hn : n < 2 ^ 64) :
    (UInt64.ofNat n &&& ~~~ UInt64.ofNat (16 - 1)).toNat = n / 16 * 16 := by
  have hmask : (~~~ UInt64.ofNat (16 - 1)).toNat = 2 ^ 4 * (2 ^ 60 - 1) := by decide
  rw [UInt64.toNat_and, hmask, UInt64.toNat_ofNat_of_lt' hn]
  apply Nat.eq_of_testBit_eq
  intro k
  rw [show n / 16 * 16 = 2 ^ 4 * (n / 2 ^ 4) by omega, Nat.testBit_and, Nat.testBit_two_pow_mul,
    Nat.testBit_two_pow_mul, Nat.testBit_two_pow_sub_one, Nat.testBit_div_two_pow]
  by_cases hk : 4 ≤ k
  · by_cases hlarge : k < 64
    · simp [hk, show k - 4 < 60 by omega, show k - 4 + 4 = k by omega]
    · have hbit : n.testBit k = false :=
        Nat.testBit_lt_two_pow (Nat.lt_of_lt_of_le hn (Nat.pow_le_pow_right (by decide) (by omega)))
      simp [hbit, show k - 4 + 4 = k by omega]
  · simp [hk]

/-- The gap up to the next multiple of sixteen, if there is one among the words. -/
theorem alignmentGap_sixteen {ε : Type} {current gap : Nat} :
    (CodeBuffer.alignmentGap current 16 : Result ε Nat) = .ok gap ↔
      current + 16 < 2 ^ 64 ∧ gap = (current + 15) / 16 * 16 - current := by
  unfold CodeBuffer.alignmentGap
  rw [bind_eq_ok]
  constructor
  · rintro ⟨raised, hr, h⟩
    obtain ⟨hlt, rfl⟩ := word64_eq_ok.mp hr
    rw [if_neg (by decide)] at h
    dsimp only at h
    rw [toNat_and_not_fifteen (by omega)] at h
    split at h
    · cases h
    · exact ⟨hlt, (Except.ok.inj h).symm⟩
  · rintro ⟨hlt, rfl⟩
    refine ⟨_, word64_eq_ok.mpr ⟨hlt, rfl⟩, ?_⟩
    rw [if_neg (by decide)]
    dsimp only
    rw [toNat_and_not_fifteen (by omega), if_neg (by omega)]
    rfl

/-- The padding ends at a multiple of sixteen and is shorter than that. -/
theorem alignment_eq_ok {base : Address} {offset : Nat} {padding : List Piece}
    (h : alignment (some base) offset = .ok padding) :
    ∃ gap, padding = [.trap gap] ∧ gap < 16 ∧ (base.toNat + (offset + gap)) % 16 = 0 := by
  obtain ⟨current, hc, h⟩ := bind_eq_ok.mp h
  obtain ⟨gap, hg, h⟩ := bind_eq_ok.mp h
  obtain rfl := pure_eq_ok.mp h
  obtain ⟨_, rfl⟩ := word64_eq_ok.mp hc
  obtain ⟨_, rfl⟩ := alignmentGap_sixteen.mp hg
  rw [Option.getD_some]
  exact ⟨_, rfl, by omega, by omega⟩

end Alignment

section Emission

variable {base : Address} {offset : Nat} {pieces : List Piece}

/-- The direct jump of a leaf goes to its address. -/
theorem jumpIfEqual_eq_ok {target : Int} {i : Instr}
    (h : jumpIfEqual (some base) offset target = .ok i) :
    ∃ rel : Int32, i = .jcc .equal (.dword rel) ∧
      Control.address base.toBitVec (offset + 6) (.jump rel.toInt) =
        some (BitVec.ofInt 64 target) := by
  obtain ⟨next, hn, h⟩ := bind_eq_ok.mp h
  obtain ⟨rel, hr, h⟩ := bind_eq_ok.mp h
  obtain ⟨_, rfl⟩ := signedWord64_eq_ok.mp hr
  split at h
  · rename_i hfits
    refine ⟨_, (pure_eq_ok.mp h).symm, ?_⟩
    rw [Control.address, add_displacement hn hfits]
  · exact absurd h (outOfRange_ne_ok _ _ _)

/-- The code of a leaf: a comparison, a direct jump to the address, and a jump through `rdx`. -/
theorem emit_leaf_eq_ok {target : Int} (h : (Tree.leaf target).emit (some base) offset = .ok pieces) :
    ∃ rel : Int32,
      pieces = (compareTo target ++ [Instr.jcc .equal (.dword rel), .jmpReg .rdx]).map .instr ∧
      Control.address base.toBitVec (offset + codeSize (compareTo target) + 6) (.jump rel.toInt) =
        some (BitVec.ofInt 64 target) := by
  obtain ⟨jump, hj, h⟩ := bind_eq_ok.mp h
  obtain ⟨rel, rfl, haddress⟩ := jumpIfEqual_eq_ok hj
  exact ⟨rel, (pure_eq_ok.mp h).symm, haddress⟩

/-- The parts of the code of a node: behind the comparison and a branch over `rel` bytes stand the
lower half, padding up to a multiple of sixteen and the upper half. -/
structure IsNodeCode (base : Address) (pivot : Int) (lower upper : Tree) (offset : Nat)
    (pieces : List Piece) (rel : SignedField) (low : List Piece) (gap : Nat) (high : List Piece) :
    Prop where
  /-- The lower half stands right behind the branch. -/
  lower_eq : lower.emit (some base)
    (offset + codeSize (compareTo pivot) + (Instr.jcc .greater rel).size) = .ok low
  /-- The upper half stands behind the padding. -/
  upper_eq : upper.emit (some base)
    (offset + codeSize (compareTo pivot) + (Instr.jcc .greater rel).size + (piecesSize low + gap)) =
      .ok high
  /-- The parts stand one behind the other. -/
  pieces_eq : pieces = (compareTo pivot ++ [Instr.jcc .greater rel]).map .instr ++
    (low ++ [.trap gap] ++ high)
  /-- The padding is short. -/
  gap_lt : gap < 16
  /-- The upper half starts at a multiple of sixteen. -/
  aligned : (base.toNat + (offset + codeSize (compareTo pivot) + (Instr.jcc .greater rel).size +
    (piecesSize low + gap))) % 16 = 0
  /-- The displacement is the distance to the upper half, cut to 32 bits. -/
  rel_mod : (rel.value - (piecesSize low + gap : Nat)) % 2 ^ 32 = 0
  /-- A distance that fits is not cut. -/
  rel_eq : piecesSize low + gap < 2 ^ 31 → rel.value = (piecesSize low + gap : Nat)

variable {pivot : Int} {lower upper : Tree}

/-- A branch, the lower half and the padding behind it, and the upper half are the code of a node. -/
theorem IsNodeCode.of_parts (rel : SignedField) {low padding high : List Piece}
    (hlow : lower.emit (some base)
      (offset + codeSize (compareTo pivot) + (Instr.jcc .greater rel).size) = .ok low)
    (hpadding : alignment (some base) (offset + codeSize (compareTo pivot) +
      (Instr.jcc .greater rel).size + piecesSize low) = .ok padding)
    (hhigh : upper.emit (some base) (offset + codeSize (compareTo pivot) +
      piecesSize (.instr (.jcc .greater rel) :: low ++ padding)) = .ok high)
    (hmod : (rel.value - (piecesSize (low ++ padding) : Nat)) % 2 ^ 32 = 0)
    (hrel : piecesSize (low ++ padding) < 2 ^ 31 → rel.value = (piecesSize (low ++ padding) : Nat)) :
    ∃ gap, IsNodeCode base pivot lower upper offset ((compareTo pivot).map Piece.instr ++
      (.instr (.jcc .greater rel) :: low ++ padding) ++ high) rel low gap high := by
  obtain ⟨gap, rfl, hlt, haligned⟩ := alignment_eq_ok hpadding
  have hsize : piecesSize (low ++ [.trap gap]) = piecesSize low + gap := by simp
  rw [hsize] at hmod hrel
  rw [List.cons_append, piecesSize_cons, hsize, length_bytes_instr] at hhigh
  refine ⟨gap, hlow, ?_, ?_, hlt, ?_, hmod, hrel⟩
  · rw [← hhigh, Nat.add_assoc _ (Instr.size _)]
  · simp
  · rw [← haligned, Nat.add_assoc _ (piecesSize low)]

/-- A 32-bit displacement is the distance up to multiples of 2 ^ 32, and the distance itself if it
fits. -/
theorem toInt_ofInt_distance (n : Nat) :
    ((Int32.ofInt n).toInt - n) % 2 ^ 32 = 0 ∧ (n < 2 ^ 31 → (Int32.ofInt n).toInt = n) := by
  rw [Int32.toInt_ofInt, show Int32.size = 2 ^ 32 from rfl, Int.bmod_def]
  refine ⟨?_, fun hn => ?_⟩ <;> split <;> omega

/-- The code of a node has its parts, with the short branch or with the long one. -/
theorem emit_node_eq_ok (h : (Tree.node pivot lower upper).emit (some base) offset = .ok pieces) :
    ∃ rel low gap high, IsNodeCode base pivot lower upper offset pieces rel low gap high := by
  obtain ⟨code, hcode, h⟩ := bind_eq_ok.mp h
  obtain ⟨padding, hpadding, h⟩ := bind_eq_ok.mp h
  dsimp only at h
  rw [piecesSize_map_instr] at h hcode hpadding
  split at h
  · rename_i hfits
    obtain ⟨front, hfront, h⟩ := bind_eq_ok.mp h
    obtain rfl := pure_eq_ok.mp hfront
    obtain ⟨high, hhigh, h⟩ := bind_eq_ok.mp h
    obtain rfl := pure_eq_ok.mp h
    have hrel : (Int8.ofInt (piecesSize (code ++ padding))).toInt = piecesSize (code ++ padding) := by
      obtain ⟨_, hhi⟩ := fitsInt8_iff.mp hfits
      exact Int8.toInt_ofInt_of_le (by omega) (by omega)
    have hmod : ((Int8.ofInt (piecesSize (code ++ padding))).toInt - piecesSize (code ++ padding)) %
        2 ^ 32 = 0 := by
      rw [hrel, Int.sub_self]
      rfl
    obtain ⟨gap, hparts⟩ := IsNodeCode.of_parts (.byte _) (by rw [size_jcc_byte]; exact hcode)
      (by rw [size_jcc_byte]; exact hpadding) hhigh hmod fun _ => hrel
    exact ⟨_, _, gap, _, hparts⟩
  · obtain ⟨code, hcode, h⟩ := bind_eq_ok.mp h
    obtain ⟨padding, hpadding, h⟩ := bind_eq_ok.mp h
    obtain ⟨front, hfront, h⟩ := bind_eq_ok.mp h
    obtain rfl := pure_eq_ok.mp hfront
    obtain ⟨high, hhigh, h⟩ := bind_eq_ok.mp h
    obtain rfl := pure_eq_ok.mp h
    obtain ⟨hmod, hrel⟩ := toInt_ofInt_distance (piecesSize (code ++ padding))
    obtain ⟨gap, hparts⟩ := IsNodeCode.of_parts (.dword _) (by rw [size_jcc_dword]; exact hcode)
      (by rw [size_jcc_dword]; exact hpadding) hhigh hmod hrel
    exact ⟨_, _, gap, _, hparts⟩

/-- The parts of the code of a node add up. -/
theorem IsNodeCode.size_eq {rel : SignedField} {low high : List Piece} {gap : Nat}
    (h : IsNodeCode base pivot lower upper offset pieces rel low gap high) :
    piecesSize pieces = codeSize (compareTo pivot) + (Instr.jcc .greater rel).size +
      (piecesSize low + gap) + piecesSize high := by
  rw [h.pieces_eq]
  simp only [piecesSize_append, piecesSize_map_instr, codeSize_append, codeSize_cons, codeSize_nil,
    piecesSize_cons, piecesSize_nil, length_bytes_trap, Nat.add_zero]
  omega

/-- The bound on the size of a dispatcher: a leaf takes up to 44 bytes, and a node 48 more than its
halves. -/
theorem Tree.piecesSize_emit_le {tree : Tree} (h : tree.emit (some base) offset = .ok pieces) :
    piecesSize pieces + 48 ≤ 92 * tree.leaves := by
  have hcompare : ∀ v, (compareTo v).length ≤ 2 := by
    intro v
    unfold compareTo
    split <;> simp
  induction tree generalizing offset pieces with
  | leaf target =>
    obtain ⟨rel, rfl, _⟩ := emit_leaf_eq_ok h
    have hle := codeSize_le (compareTo target ++ [.jcc .equal (.dword rel), .jmpReg .rdx])
    have htest := hcompare target
    rw [List.length_append] at hle
    rw [piecesSize_map_instr, leaves]
    simp only [List.length_cons, List.length_nil] at hle
    omega
  | node pivot lower upper ihl ihu =>
    obtain ⟨rel, low, gap, high, hcode⟩ := emit_node_eq_ok h
    have hlow := ihl hcode.lower_eq
    have hhigh := ihu hcode.upper_eq
    have hgap := hcode.gap_lt
    have hle := codeSize_le (compareTo pivot ++ [.jcc .greater rel])
    have htest := hcompare pivot
    have hparts := hcode.size_eq
    rw [List.length_append, codeSize_append, codeSize_cons, codeSize_nil] at hle
    simp only [List.length_cons, List.length_nil] at hle
    rw [leaves]
    omega

/-- The branches of a search tree with its code at an offset reach the upper halves: every lower half,
with the padding behind it, takes less than two gigabytes. -/
def Tree.Reaches (base : Address) : Tree → Nat → Prop
  | .leaf _, _ => True
  | .node pivot lower upper, offset => ∀ pieces rel low gap high,
      (Tree.node pivot lower upper).emit (some base) offset = .ok pieces →
      IsNodeCode base pivot lower upper offset pieces rel low gap high →
      piecesSize low + gap < 2 ^ 31 ∧
        lower.Reaches base (offset + codeSize (compareTo pivot) + (Instr.jcc .greater rel).size) ∧
        upper.Reaches base (offset + codeSize (compareTo pivot) + (Instr.jcc .greater rel).size +
          (piecesSize low + gap))

/-- In code of less than two gigabytes all branches reach. -/
theorem Tree.reaches_of_size {tree : Tree} (h : tree.emit (some base) offset = .ok pieces)
    (hsize : piecesSize pieces < 2 ^ 31) : tree.Reaches base offset := by
  induction tree generalizing offset pieces with
  | leaf target => trivial
  | node pivot lower upper ihl ihu =>
    intro pieces' rel low gap high h' hcode
    obtain rfl : pieces = pieces' := Except.ok.inj (h.symm.trans h')
    have hparts := hcode.size_eq
    exact ⟨by omega, ihl hcode.lower_eq (by omega), ihu hcode.upper_eq (by omega)⟩

/-- Every branch to an upper half in pieces that stand at an offset goes to a multiple of sixteen. -/
def AlignedFrom (base : Address) (offset : Nat) : List Piece → Prop
  | [] => True
  | p :: rest => (∀ rel, p = .instr (.jcc .greater rel) →
      (base.toNat + (offset + (Instr.jcc .greater rel).size : Nat) + rel.value) % 16 = 0) ∧
    AlignedFrom base (offset + p.bytes.length) rest

/-- The branches of two parts are those of both. -/
theorem alignedFrom_append {front back : List Piece} :
    AlignedFrom base offset (front ++ back) ↔
      AlignedFrom base offset front ∧ AlignedFrom base (offset + piecesSize front) back := by
  induction front generalizing offset with
  | nil => simp [AlignedFrom]
  | cons p rest ih =>
    rw [List.cons_append, AlignedFrom, AlignedFrom, ih, piecesSize_cons, Nat.add_assoc, and_assoc]

/-- Instructions without a branch to an upper half have none that is not aligned. -/
theorem alignedFrom_map_instr {code : List Instr} (h : ∀ i ∈ code, ∀ rel, i ≠ .jcc .greater rel) :
    AlignedFrom base offset (code.map .instr) := by
  induction code generalizing offset with
  | nil => trivial
  | cons i rest ih =>
    refine ⟨fun rel hi => ?_, ih fun j hj => h j (List.mem_cons_of_mem _ hj)⟩
    exact absurd (Piece.instr.inj hi) (h i (List.mem_cons_self ..) rel)

/-- A comparison has no branch. -/
theorem ne_jcc_of_mem_compareTo {v : Int} {i : Instr} (h : i ∈ compareTo v) (cond : Cond)
    (rel : SignedField) : i ≠ .jcc cond rel := by
  rintro rfl
  unfold compareTo loadImm64 loadImm32 at h
  split at h
  · simp at h
  · split at h
    · split at h
      · simp at h
      · split at h <;> simp at h
    · simp at h

/-- The branches of a search tree are aligned. -/
theorem Tree.alignedFrom_emit {tree : Tree} (h : tree.emit (some base) offset = .ok pieces) :
    AlignedFrom base offset pieces := by
  induction tree generalizing offset pieces with
  | leaf target =>
    obtain ⟨rel, rfl, _⟩ := emit_leaf_eq_ok h
    refine alignedFrom_map_instr fun i hi rel' => ?_
    rcases List.mem_append.mp hi with hi | hi
    · exact ne_jcc_of_mem_compareTo hi _ _
    · rintro rfl
      simp at hi
  | node pivot lower upper ihl ihu =>
    obtain ⟨rel, low, gap, high, hcode⟩ := emit_node_eq_ok h
    have haligned := hcode.aligned
    have hmod := hcode.rel_mod
    rw [hcode.pieces_eq, List.map_append]
    simp only [alignedFrom_append, piecesSize_append, piecesSize_map_instr, codeSize_cons,
      codeSize_nil, piecesSize_cons, piecesSize_nil, length_bytes_trap, Nat.add_zero]
    refine ⟨⟨alignedFrom_map_instr fun i hi => ne_jcc_of_mem_compareTo hi _, ?_, trivial⟩,
      ⟨?_, ?_, trivial⟩, ?_⟩
    · -- the branch of the node itself
      rintro rel' hrel
      obtain rfl : rel = rel' := by simpa using hrel
      omega
    · rw [← Nat.add_assoc]
      exact ihl hcode.lower_eq
    · intro rel' hrel
      cases hrel
    · rw [← Nat.add_assoc offset]
      exact ihu hcode.upper_eq

/-- A branch that stands in aligned pieces goes to a multiple of sixteen. -/
theorem AlignedFrom.of_placed {all : List Piece} {rel : SignedField} (h : AlignedFrom base 0 all)
    (hp : Placed all offset [.instr (.jcc .greater rel)]) :
    (base.toNat + (offset + (Instr.jcc .greater rel).size : Nat) + rel.value) % 16 = 0 := by
  obtain ⟨front, back, rfl, rfl⟩ := hp
  have hbranch := (alignedFrom_append.mp h).2.1 rel rfl
  rw [Nat.zero_add] at hbranch
  exact hbranch

end Emission

section Search

/-- All pivots and addresses of a tree have a property. -/
def Tree.All (P : Int → Prop) : Tree → Prop
  | .leaf target => P target
  | .node pivot lower upper => P pivot ∧ lower.All P ∧ upper.All P

/-- What holds of all addresses of a list holds in the tree over it. -/
theorem Tree.all_build {P : Int → Prop} {first : Int} {rest : List Int}
    (h : ∀ v ∈ first :: rest, P v) : (build first rest).All P := by
  fun_induction build first rest with
  | case1 first rest hnil => exact h first (List.mem_cons_self ..)
  | case2 first rest hne half ih1 ih2 =>
    obtain ⟨below, pivot, hpivot, hlower, hupper, hlist⟩ := split_at_pivot first hne
    rw [hlist] at h
    refine ⟨?_, ih1 fun v hv => h v ?_, ih2 fun v hv => h v ?_⟩
    · rw [hpivot]
      exact h pivot (List.mem_append_right _ (List.mem_cons_self ..))
    · rw [hlower] at hv
      rw [List.append_cons]
      exact List.mem_append_left _ hv
    · rw [hupper] at hv
      exact List.mem_append_right _ (List.mem_cons_of_mem _ hv)

/-- The processor runs from an offset of a dispatcher at `base` to an instruction that leaves it for
the address in `rdx`, and has then changed the scratch register and the flags only. -/
def Transfers (pieces : List Piece) (base : Address) (offset : Nat) (s : State) (i : Instr)
    (control : Control) : Prop :=
  ∃ o t, Walks pieces offset s o t ∧ Fetches pieces o i ∧ i.exec t = some (t, control) ∧
    control.address base.toBitVec (o + i.size) = some (s.regs .rdx) ∧ Keeps s t

/-- How a dispatcher is left: by a direct jump if the word in `rdx` is found, and by a jump through
`rdx` if it is not. -/
def LeavesBy (pieces : List Piece) (base : Address) (offset : Nat) (s : State) (found : Prop) :
    Prop :=
  (found → ∃ rel, Transfers pieces base offset s (.jcc .equal rel) (.jump rel.value)) ∧
  (¬found → Transfers pieces base offset s (.jmpReg .rdx) (.goto (s.regs .rdx)))

variable {base : Address} {offset : Nat} {pieces all : List Piece} {s t : State}

/-- A dispatcher that is left behind a walk is left in the same way from the start of the walk. -/
theorem Walks.leavesBy {a b : Nat} {found : Prop} (h : Walks all a s b t) (hk : Keeps s t)
    (hl : LeavesBy all base b t found) : LeavesBy all base a s found := by
  have hrdx : t.regs .rdx = s.regs .rdx := hk.regs_eq .rdx (by decide)
  have htransfers : ∀ i control, Transfers all base b t i control →
      Transfers all base a s i control := by
    rintro i control ⟨o, u, hw, hf, hx, haddress, hk'⟩
    exact ⟨o, u, h.trans hw, hf, hx, hrdx ▸ haddress, hk.trans hk'⟩
  refine ⟨fun hfound => ?_, fun hnot => ?_⟩
  · obtain ⟨rel, ht⟩ := hl.1 hfound
    exact ⟨rel, htransfers _ _ ht⟩
  · rw [← hrdx]
    exact htransfers _ _ (hl.2 hnot)

/-- The jump through `rdx` leaves for the address there. -/
theorem transfers_jmpReg {back : List Piece}
    (h : Placed all offset (.instr (.jmpReg .rdx) :: back)) (s : State) :
    Transfers all base offset s (.jmpReg .rdx) (.goto (s.regs .rdx)) :=
  ⟨offset, s, .refl, h.fetches trivial, rfl, rfl, .refl⟩

/-- A conditional jump is taken if its condition holds. -/
theorem exec_jcc {f : Flags} (h : s.flags = some f) (cond : Cond) (rel : SignedField) :
    (Instr.jcc cond rel).exec s = some (s, if cond.holds f then .jump rel.value else .next) := by
  rw [Instr.exec, h]
  rfl

/-- A leaf is left by its direct jump exactly if `rdx` is its address. -/
theorem leavesBy_leaf {target : Int}
    (h : (Tree.leaf target).emit (some base) offset = .ok pieces) (hp : Placed all offset pieces)
    (ht : InWord target) (s : State) :
    LeavesBy all base offset s (target = (s.regs .rdx).toInt) := by
  obtain ⟨rel, rfl, haddress⟩ := emit_leaf_eq_ok h
  rw [List.map_append] at hp
  obtain ⟨t, hx, hflags, hkeeps⟩ := exec_compareTo target s
  have hrdx : t.regs .rdx = s.regs .rdx := hkeeps.regs_eq .rdx (by decide)
  have hjump := hp.right
  rw [piecesSize_map_instr] at hjump
  have hexec := exec_jcc hflags .equal (.dword rel)
  rw [holds_equal _ ht] at hexec
  refine (Walks.execAll hp.left (encodable_compareTo target) hx).leavesBy hkeeps ⟨?_, ?_⟩
  · intro hfound
    rw [if_pos (decide_eq_true hfound.symm)] at hexec
    refine ⟨.dword rel, _, t, .refl, hjump.fetches trivial, hexec, ?_, .refl⟩
    have hword : BitVec.ofInt 64 target = s.regs .rdx := by
      rw [hfound]
      exact BitVec.ofInt_toInt
    rw [size_jcc_dword, hrdx, ← hword]
    exact haddress
  · intro hnot
    rw [if_neg (by simpa using fun heq => hnot heq.symm)] at hexec
    have hwalk := Walks.next hjump trivial hexec
    refine (hwalk.leavesBy .refl ⟨fun hfound => absurd hfound hnot, fun _ => ?_⟩).2 hnot
    exact transfers_jmpReg hjump.tail t

/-- The code of a search tree is left by a direct jump exactly if the search finds the word in
`rdx`. -/
theorem leavesBy_emit {tree : Tree} (h : tree.emit (some base) offset = .ok pieces)
    (hp : Placed all offset pieces) (hreach : tree.Reaches base offset) (hall : tree.All InWord)
    (s : State) :
    LeavesBy all base offset s (tree.search (s.regs .rdx).toInt = (s.regs .rdx).toInt) := by
  induction tree generalizing offset pieces s with
  | leaf target => exact leavesBy_leaf h hp hall s
  | node pivot lower upper ihl ihu =>
    obtain ⟨hpivot, hlower, hupper⟩ := hall
    obtain ⟨rel, low, gap, high, hcode⟩ := emit_node_eq_ok h
    obtain ⟨hlt, hreachl, hreachu⟩ := hreach pieces rel low gap high h hcode
    rw [hcode.pieces_eq] at hp
    have htest := hp.left
    have hbehind := hp.right
    rw [piecesSize_map_instr, codeSize_append, codeSize_cons, codeSize_nil, Nat.add_zero] at hbehind
    rw [List.map_append] at htest
    have hbranch := htest.right
    rw [piecesSize_map_instr] at hbranch
    obtain ⟨t, hx, hflags, hkeeps⟩ := exec_compareTo pivot s
    have hrdx : t.regs .rdx = s.regs .rdx := hkeeps.regs_eq .rdx (by decide)
    have hexec := exec_jcc hflags .greater rel
    rw [holds_greater _ hpivot] at hexec
    refine (Walks.execAll htest.left (encodable_compareTo pivot) hx).leavesBy hkeeps ?_
    rw [Tree.search, ← hrdx]
    rw [← hrdx] at hexec
    by_cases hgt : pivot < (t.regs .rdx).toInt
    · -- the branch is taken and lands at the upper half
      rw [if_pos (decide_eq_true hgt)] at hexec
      rw [if_pos hgt]
      have hrel := hcode.rel_eq hlt
      have hhigh := hbehind.right
      simp only [piecesSize_append, piecesSize_cons, piecesSize_nil, length_bytes_trap,
        Nat.add_zero, ← Nat.add_assoc offset] at hhigh
      refine (Walks.branch hbranch hexec ?_).leavesBy .refl (ihu hcode.upper_eq hhigh hreachu hupper t)
      omega
    · -- the lower half is next
      rw [if_neg (by simpa using hgt)] at hexec
      rw [if_neg hgt]
      have hlow := hbehind.left.left
      rw [← Nat.add_assoc] at hlow
      exact (Walks.next hbranch trivial hexec).leavesBy .refl
        (ihl hcode.lower_eq hlow hreachl hlower t)

end Search

section Targets

variable {targets : List Address} {base : Address} {pieces : List Piece}

/-- A dispatcher over no addresses is the jump through `rdx`, and any other is the code of a tree. -/
theorem emit_cases (h : emit targets (some base) = .ok pieces) :
    (targets = [] ∧ pieces = [.instr (.jmpReg .rdx)]) ∨
      ∃ first rest, sortedTargets targets = first :: rest ∧
        (Tree.build first rest).emit (some base) 0 = .ok pieces := by
  unfold emit at h
  split at h
  · rename_i hnil
    refine .inl ⟨?_, (Except.ok.inj h).symm⟩
    cases targets with
    | nil => rfl
    | cons a rest =>
      have hmem : a.signed ∈ sortedTargets (a :: rest) :=
        mem_sortedTargets.mpr ⟨a, List.mem_cons_self .., rfl⟩
      rw [hnil] at hmem
      cases hmem
  · rename_i first rest hlist
    exact .inr ⟨first, rest, hlist, h⟩

/-- The search finds exactly the words that are given addresses. -/
theorem search_eq_iff {first : Int} {rest : List Int} (h : sortedTargets targets = first :: rest)
    (w : BitVec 64) :
    (Tree.build first rest).search w.toInt = w.toInt ↔ ∃ a ∈ targets, a.toBitVec = w := by
  have hsorted := pairwise_sortedTargets targets
  have hmem : w.toInt ∈ first :: rest ↔ ∃ a ∈ targets, a.toBitVec = w := by
    rw [← h, mem_sortedTargets]
    refine exists_congr fun a => and_congr_right fun _ => ?_
    exact BitVec.toInt_inj
  rw [h] at hsorted
  obtain ⟨hends, hfound⟩ := @Tree.search_build first w.toInt rest hsorted
  rw [← hmem]
  refine ⟨fun heq => ?_, hfound⟩
  rw [heq] at hends
  exact hends

/-- The readings of addresses are readings of words. -/
theorem inWord_of_mem_sortedTargets {v : Int} (h : v ∈ sortedTargets targets) : InWord v := by
  obtain ⟨a, _, rfl⟩ := mem_sortedTargets.mp h
  have hlow := a.toBitVec.le_toInt
  have hhigh := @BitVec.toInt_lt 64 a.toBitVec
  exact ⟨hlow, hhigh⟩

/-- The branches of a dispatcher reach the upper halves. -/
def BranchesReach (targets : List Address) (base : Address) : Prop :=
  ∀ first rest, sortedTargets targets = first :: rest → (Tree.build first rest).Reaches base 0

/-- A dispatcher takes at most 92 bytes per address, and its branches go to multiples of sixteen. If
they reach, as in code of less than two gigabytes, it is left from every state for the address in
`rdx`: by a direct jump if that is one of the addresses, and through `rdx` if it is not. -/
theorem dispatcher_leaves_for_rdx (h : emit targets (some base) = .ok pieces) :
    piecesSize pieces ≤ 92 * targets.length + 2 ∧
    (∀ offset rel, Placed pieces offset [.instr (.jcc .greater rel)] →
      (base.toNat + (offset + (Instr.jcc .greater rel).size : Nat) + rel.value) % 16 = 0) ∧
    (piecesSize pieces < 2 ^ 31 → BranchesReach targets base) ∧
    (BranchesReach targets base →
      ∀ s, LeavesBy pieces base 0 s (∃ a ∈ targets, a.toBitVec = s.regs .rdx)) := by
  have hplaced : Placed pieces 0 pieces := ⟨[], [], by simp, rfl⟩
  rcases emit_cases h with ⟨rfl, rfl⟩ | ⟨first, rest, hlist, htree⟩
  · have hnone : ∀ w : BitVec 64, ¬∃ a ∈ ([] : List Address), a.toBitVec = w := by simp
    refine ⟨by decide, fun offset rel => ?_, fun _ first rest hlist => ?_, fun _ s => ?_⟩
    · refine AlignedFrom.of_placed ⟨fun rel' heq => ?_, trivial⟩
      cases heq
    · cases hlist
    · exact ⟨fun hfound => absurd hfound (hnone _), fun _ => transfers_jmpReg hplaced s⟩
  · have hlength := length_sortedTargets_le targets
    have hbound := Tree.piecesSize_emit_le htree
    have hwords : (Tree.build first rest).All InWord :=
      Tree.all_build fun v hv => inWord_of_mem_sortedTargets (hlist ▸ hv)
    rw [Tree.leaves_build] at hbound
    rw [hlist, List.length_cons] at hlength
    refine ⟨by omega, fun offset rel hp => (Tree.alignedFrom_emit htree).of_placed hp,
      fun hsize first' rest' hlist' => ?_, fun hreach s => ?_⟩
    · obtain ⟨rfl, rfl⟩ := List.cons.inj (hlist.symm.trans hlist')
      exact Tree.reaches_of_size htree hsize
    · rw [← search_eq_iff hlist]
      exact leavesBy_emit htree hplaced (hreach first rest hlist) hwords s

/-- Addresses on both sides of 2 ^ 31, in no order and one of them twice: some comparisons take an
immediate and some the scratch register. -/
def mixedTargets : List Address :=
  [0x80000400, 0x7FFFF000, 0x80000100, 0x7FFFF100, 0x80000200, 0x7FFFF200, 0x80000300, 0x7FFFF300,
    0x80000400, 0x80000500, 0x7FFFF500, 0x80000600]

/-- A dispatcher over `mixedTargets` is emitted; its first branch takes the long form. It leaves by a
direct jump for an address of the list and through `rdx` for its neighbour. -/
theorem dispatcher_leaves_mixedTargets :
    ∃ pieces, emit mixedTargets (some 0x80000000) = .ok pieces ∧
      pieces.any (fun p => p matches .instr (.jcc .greater (.dword _))) = true ∧
      (∀ s : State, s.regs .rdx = 0x7FFFF300 →
        ∃ rel, Transfers pieces 0x80000000 0 s (.jcc .equal rel) (.jump rel.value)) ∧
      (∀ s : State, s.regs .rdx = 0x7FFFF301 →
        Transfers pieces 0x80000000 0 s (.jmpReg .rdx) (.goto 0x7FFFF301)) := by
  have hemit : ((emit mixedTargets (some 0x80000000)).toOption.map fun pieces =>
      pieces.any (fun p => p matches .instr (.jcc .greater (.dword _)))) = some true := by
    decide +kernel
  cases hok : emit mixedTargets (some 0x80000000) with
  | error f =>
    rw [hok] at hemit
    cases hemit
  | ok pieces =>
    rw [hok] at hemit
    obtain ⟨hsize, _, hreach, hleaves⟩ := dispatcher_leaves_for_rdx hok
    have hlength : mixedTargets.length = 12 := rfl
    refine ⟨pieces, rfl, Option.some.inj hemit, fun s hs => ?_, fun s hs => ?_⟩
    · refine (hleaves (hreach (by omega)) s).1 ?_
      rw [hs]
      decide
    · have hleft := (hleaves (hreach (by omega)) s).2
      rw [hs] at hleft
      exact hleft (by decide)

end Targets

end Dispatcher

end NativeForge
