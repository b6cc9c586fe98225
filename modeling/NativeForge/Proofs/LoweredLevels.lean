import NativeForge.Proofs.LoweredCode

/-!
# Stack levels of lowered code

Wherever the code of one operation lets control go on, to the next operation, to the target of a
jump or to the shared epilogue, the stack pointer is where it was at the start of the code. Jumps
lead to the offsets of operations, apart from those that repeat an atomic attempt or jump to
themselves. A tail call makes its checks at that level and then either goes around its teardown or
takes the frame down and leaves the program.
-/

namespace NativeForge

open X64 Virtual Target TailCall

namespace X64

section Levels

variable {doors exits : Nat → Prop} {start : Nat} {front code : List Instr} {i : Instr}
  {distance : Int}

/-- A branch behind instructions that go on and leave the stack pointer alone. -/
theorem Levelled.branching (hfront : ∀ j ∈ front, j.distance? = none ∧ j.stackMove = some 0)
    (hd : i.distance? = some distance)
    (ht : Levelled.Targets doors start (front ++ [i])
      ((start + codeSize (front ++ [i]) : Nat) + distance))
    (hend : i.passesOn = true → doors (start + codeSize (front ++ [i]))) :
    Levelled doors exits start (front ++ [i]) := by
  refine .still ?_ (jumpsTo_branch (fun j hj => (hfront j hj).1) hd ht) fun before j hsplit hon => ?_
  · exact List.forall_mem_append.mpr ⟨fun j hj => (hfront j hj).2,
      List.forall_mem_singleton.mpr (Instr.stackMove_of_distance hd)⟩
  · obtain ⟨_, rfl⟩ := List.append_singleton_inj.mp hsplit
    exact hend hon

/-- Filler goes on and leaves the stack pointer alone. -/
theorem still_of_filler (h : IsFiller code) :
    ∀ j ∈ code, j.distance? = none ∧ j.stackMove = some 0 := by
  intro j hj
  obtain ⟨extra, rfl⟩ := h j hj
  exact ⟨rfl, rfl⟩

end Levels

end X64

namespace Pass

variable {p : Pass} {depth : UInt32} {index : Nat} {epilogue : Option Nat} {operation : Operation}
  {f : Fragment} {doors exits : Nat → Prop} {start : Nat}

/-- The repetition of an atomic attempt leads behind the first instruction. -/
theorem levelled_fetchCode {op : AluOp} {size : OpSize} {base src : VReg} {off : Int16}
    (hend : doors (start + codeSize (fetchCode op size base src off))) :
    Levelled doors exits start (fetchCode op size base src off) := by
  have hbeside : Lowering.besideAccumulator src ≠ .rsp := by
    unfold Lowering.besideAccumulator
    split
    · decide
    · exact src.native_fits.1
  refine .still ?_ ?_ fun _ _ _ _ => hend
  · intro i hi
    refine Instr.stackMove_of_not_written ?_
    revert i
    simp [fetchCode, Instr.written, LockedOp.written, hbeside.symm]
  · have hretry := retry_eq op size base src off
    have hsix : (fetchCode op size base src off).take 6 =
      (fetchCode op size base src off).take 5 ++ [.jcc .notEqual (retryField op size base src off)] :=
      rfl
    rw [← List.take_append_drop 6 (fetchCode op size base src off), hsix]
    refine jumpsTo_append.mpr ⟨jumpsTo_branch (by simp [fetchCode, Instr.distance?]) rfl
      ⟨start + codeSize ((fetchCode op size base src off).take 1), ?_,
        .inr ⟨(fetchCode op size base src off).take 1, (fetchCode op size base src off).drop 1, rfl,
          by simp [fetchCode], rfl⟩⟩, jumpsTo_of_plain (by simp [fetchCode, Instr.distance?])⟩
    rw [← hsix]
    omega

/-- A jump to an offset that the pass knows, with filler in front, or left out. -/
theorem levelled_jump {distance : Int} {mayVanish : Bool} {code : List Instr}
    (h : p.jump index distance mayVanish = .ok code) (hend : doors (start + codeSize code))
    (ht : ∃ target : Nat, ((start + codeSize code : Nat) : Int) + distance = target ∧
      doors target) : Levelled doors exits start code := by
  obtain ⟨target, htarget, hdoor⟩ := ht
  rcases jump_eq_ok h with ⟨_, _, hfiller⟩ | ⟨hfits, filler, hfiller, rfl⟩
  · exact .still (fun i hi => (still_of_filler hfiller i hi).2)
      (jumpsTo_of_plain fun i hi => (still_of_filler hfiller i hi).1) fun _ _ _ _ => hend
  · refine .branching (still_of_filler hfiller) rfl ⟨target, ?_, .inl hdoor⟩ fun _ => hend
    rw [value_branchField hfits, htarget]

/-- A jump to itself. -/
theorem levelled_selfJump {mayVanish : Bool} {code : List Instr}
    (h : p.jump index (-2) mayVanish = .ok code) (hend : doors (start + codeSize code)) :
    Levelled doors exits start code := by
  rcases jump_eq_ok h with ⟨_, hzero, _⟩ | ⟨hfits, filler, hfiller, rfl⟩
  · cases hzero
  · refine .branching (still_of_filler hfiller) rfl ⟨start + codeSize filler, ?_,
      .inr ⟨filler, _, rfl, by simp, rfl⟩⟩ fun _ => hend
    have hsize : codeSize [Instr.jmp (branchField (-2))] = 2 := rfl
    rw [value_branchField hfits, codeSize_append, hsize]
    omega

/-- The shared epilogue ends with a return. -/
theorem levelled_epilogue (frame : Frame) : Levelled doors exits start frame.epilogue := by
  have hsplit : frame.epilogue = (frame.pops ++ [.leave]) ++ [.ret] := by simp [Frame.epilogue]
  rw [hsplit]
  refine .ending ?_ ?_ rfl rfl
  · intro i hi
    rcases List.mem_append.mp hi with hi | hi
    · obtain ⟨v, _, rfl⟩ := List.mem_map.mp hi
      rfl
    · rw [List.mem_singleton.mp hi]
      rfl
  · simp [Frame.pops]

/-- Wherever the code of an operation other than a tail call lets control go on, the stack pointer
is where it was at the start. -/
theorem levelled_lower (h : p.lower depth index epilogue operation = .ok f)
    (htail : ∀ id, operation ≠ .tailCall id)
    (hnext : p.offset (index + 1) = start + codeSize f.code)
    (hend : doors (start + codeSize f.code))
    (hjump : ∀ off distance, p.jumpDistance index off = .ok distance →
      ∃ target : Nat, ((start + codeSize f.code : Nat) : Int) + distance = target ∧ doors target)
    (hexit : ∀ first, epilogue = some first → doors first) :
    Levelled doors exits start f.code := by
  cases operation with
  | fetch op size base src off =>
    rw [lower, fetch_eq] at h
    cases h
    exact levelled_fetchCode hend
  | jump off =>
    obtain ⟨distance, code, hdistance, hcode, rfl⟩ := lower_jump h
    rcases hdistance with ⟨_, rfl⟩ | ⟨_, hdistance⟩
    · exact levelled_selfJump hcode hend
    · exact levelled_jump hcode hend (hjump off distance hdistance)
  | branch cond size dst src off =>
    obtain ⟨distance, filler, hdistance, hfits, hfiller, hcode⟩ := lower_branch h
    obtain ⟨target, htarget, hdoor⟩ := hjump off distance hdistance
    obtain ⟨_, hplain, hwritten⟩ := compare_spares cond size dst src
    rw [hcode] at hend htarget ⊢
    refine .branching (List.forall_mem_cons.mpr ⟨⟨Instr.distance?_of_isPlain hplain, ?_⟩,
      still_of_filler hfiller⟩) rfl ⟨target, ?_, .inl hdoor⟩ fun _ => hend
    · exact Instr.stackMove_of_not_written (by simp [hwritten])
    · rw [value_branchField hfits, htarget]
  | exit =>
    rcases lower_exit h with ⟨_, hcode⟩ | ⟨first, distance, filler, hfirst, htarget, hfits, hfiller,
      hcode⟩
    · rw [hcode]
      exact levelled_epilogue p.frame
    · rw [hcode] at hend hnext ⊢
      refine .branching (still_of_filler hfiller) rfl ⟨first, ?_, .inl (hexit first hfirst)⟩
        fun _ => hend
      rw [value_branchField hfits, ← hnext, htarget]
  | call id subprogram =>
    obtain ⟨counter, rel, hcode, hcounter⟩ := call_code h
    refine .still ?_ (jumpsTo_of_plain ?_) fun _ _ _ _ => hend
    · rcases hcounter with rfl | ⟨field, rfl⟩ <;> simp [hcode, Instr.stackMove, Instr.written]
    · rcases hcounter with rfl | ⟨field, rfl⟩ <;> simp [hcode, Instr.distance?]
  | tailCall id => exact absurd rfl (htail id)
  | _ => exact (orderly_lower h trivial).levelled hend

end Pass

namespace TailCall

/-- The checks of a tail call: their branches lead over the given number of bytes behind them. -/
structure Guards (frame : Frame) (guard : List Instr) (behind : Nat) : Prop where
  /-- The checks leave the stack pointer alone. -/
  still : ∀ i ∈ guard, i.stackMove = some 0
  /-- The checks write what may be written. -/
  writes : WritesOnly frame.writable guard
  /-- The checks can be read back. -/
  encodable : Encodable guard
  /-- Every branch leads to the same offset. -/
  jumps : ∀ a : Nat, JumpsTo (· = ((a + codeSize guard + behind : Nat) : Int)) a guard

variable {frame : Frame} {depth : UInt32} {front back guard : List Instr} {behind : Nat}

/-- Checks in two parts. -/
theorem Guards.append (hf : Guards frame front (codeSize back + behind))
    (hb : Guards frame back behind) : Guards frame (front ++ back) behind where
  still := List.forall_mem_append.mpr ⟨hf.still, hb.still⟩
  writes := writesOnly_append.mpr ⟨hf.writes, hb.writes⟩
  encodable := encodable_append.mpr ⟨hf.encodable, hb.encodable⟩
  jumps a := by
    have hsum : a + codeSize (front ++ back) + behind =
        a + codeSize front + (codeSize back + behind) := by
      rw [codeSize_append]
      omega
    rw [hsum]
    refine jumpsTo_append.mpr ⟨hf.jumps a, ?_⟩
    rw [← Nat.add_assoc]
    exact hb.jumps (a + codeSize front)

/-- Instructions without a branch. -/
theorem guards_of_plain (hplain : ∀ i ∈ guard, i.isPlain = true)
    (hrsp : ∀ i ∈ guard, .rsp ∉ i.written) (hwrites : WritesOnly frame.writable guard)
    (henc : Encodable guard) (behind : Nat) : Guards frame guard behind where
  still i hi := Instr.stackMove_of_not_written (hrsp i hi)
  writes := hwrites
  encodable := henc
  jumps _ := jumpsTo_of_plain fun i hi => Instr.distance?_of_isPlain (hplain i hi)

/-- A branch over the bytes behind it. -/
theorem guards_branch (cond : Cond) (rel : SignedField) (hrel : rel.value = behind) :
    Guards frame [.jcc cond rel] behind where
  still := by simp [Instr.stackMove, Instr.written]
  writes := by simp [Instr.written]
  encodable := by simp [Instr.HasOwnEncoding]
  jumps a := by
    refine ⟨fun distance hd => ?_, trivial⟩
    obtain rfl := Option.some.inj hd
    rw [hrel, codeSize_cons, codeSize_nil]
    omega

/-- The comparison of the counter with its limit. -/
theorem guards_checkCount (frame : Frame) (counter : Int32) (behind : Nat) :
    Guards frame (checkCount counter) behind := by
  obtain ⟨hrax, _⟩ := frame.scratch_writable
  have hbase : Reg.rbp.code ≠ 4 := by decide
  refine guards_of_plain ?_ ?_ ?_ ?_ behind
  · exact List.all_eq_true.mp rfl
  · simp [checkCount, Instr.written]
  · simp [checkCount, Instr.written, hrax]
  · simp [checkCount, Instr.HasOwnEncoding, hbase]

/-- The count of the tail call. -/
theorem guards_bumpCount (frame : Frame) (counter : Int32) (behind : Nat) :
    Guards frame (bumpCount counter) behind := by
  obtain ⟨hrax, _⟩ := frame.scratch_writable
  have hbase : Reg.rbp.code ≠ 4 := by decide
  refine guards_of_plain ?_ ?_ ?_ ?_ behind
  · exact List.all_eq_true.mp rfl
  · simp [bumpCount, Instr.written]
  · simp [bumpCount, Instr.written, hrax]
  · simp [bumpCount, Instr.HasOwnEncoding, hbase]

/-- The comparison of the index with the length of the array. -/
theorem guards_bounds (frame : Frame) (disp : SignedField) (behind : Nat) :
    Guards frame [.mov .narrow .rdx .rdx, .cmpMem .narrow .rsi .rdx disp] behind := by
  obtain ⟨_, _, hrdx, _⟩ := frame.scratch_writable
  have hbase : Reg.rsi.code ≠ 4 := by decide
  refine guards_of_plain ?_ ?_ ?_ ?_ behind
  · exact List.all_eq_true.mp rfl
  · simp [Instr.written]
  · simp [Instr.written, hrdx]
  · simp [Instr.HasOwnEncoding, hbase]

/-- The look at the slot of the array. -/
theorem guards_lookup (frame : Frame) (disp : Int32) (behind : Nat) :
    Guards frame [.loadIndexed .rcx .rsi .rdx disp, .test .wide .rcx .rcx] behind := by
  obtain ⟨_, hrcx, _⟩ := frame.scratch_writable
  refine guards_of_plain ?_ ?_ ?_ ?_ behind
  · exact List.all_eq_true.mp rfl
  · simp [Instr.written]
  · simp [Instr.written, hrcx]
  · simp [Instr.HasOwnEncoding]

/-- An indirect tail call: checks whose branches lead to its end, the teardown, and the jump. -/
theorem indirect_guards {abi : Abi} {code : List Instr} (h : indirect frame depth abi = .ok code) :
    ∃ guard, code = guard ++ (frame.teardown depth ++ landing abi ++ [.jmpReg .rcx]) ∧
      Guards frame guard (codeSize (frame.teardown depth ++ landing abi ++ [.jmpReg .rcx])) := by
  obtain ⟨outOfBounds, exhausted, empty, rfl, hempty, hexhausted, hbounds⟩ := indirect_eq_ok h
  have hlookup : codeSize (bumpCount (Frame.counterOffset depth) ++
      ([.loadIndexed .rcx .rsi .rdx abi.arraySlotsOffset, .test .wide .rcx .rcx] ++
        [.jcc .equal (.byte empty)])) = 22 := rfl
  refine ⟨_, ?_, (guards_bounds frame (.shortest abi.arrayCountOffset) _).append
    ((guards_branch .belowEqual (.byte outOfBounds) ?_).append
      ((guards_checkCount frame (Frame.counterOffset depth) _).append
        ((guards_branch .aboveEqual (.byte exhausted) ?_).append
          ((guards_bumpCount frame (Frame.counterOffset depth) _).append
            ((guards_lookup frame abi.arraySlotsOffset _).append
              (guards_branch .equal (.byte empty) ?_))))))⟩
  · simp [counting]
  · rw [SignedField.value, hbounds, hempty, codeSize_append (checkCount _), codeSize_append [_],
      hlookup, codeSize_checkCount, codeSize_cons, size_jcc_byte, codeSize_nil]
    omega
  · rw [SignedField.value, hexhausted, hempty, hlookup]
    omega
  · exact hempty

/-- The instruction fills a patchable field and writes no register. -/
structure IsField (i : Instr) : Prop where
  /-- The instruction has the size of a field. -/
  size_eq : i.size = siteSize
  /-- The instruction can be read back. -/
  own : i.HasOwnEncoding
  /-- The instruction writes no register. -/
  written_eq : i.written = []

/-- An empty field. -/
theorem isField_nop : IsField (.nop 4) := ⟨rfl, trivial, rfl⟩

/-- A field with a jump. -/
theorem isField_jmp (rel : Int32) : IsField (.jmp (.dword rel)) where
  size_eq := by simp [Instr.size, Instr.encode, Bytes.ofInt32, Bytes.ofUInt32, siteSize]
  own := trivial
  written_eq := rfl

/-- The code of a direct tail call with the given instructions in its two fields. -/
def directCode (guard teardown : List Instr) (bypass target : Instr) : List Instr :=
  guard ++ [bypass] ++ teardown ++ [target]

variable {b t : Instr}

/-- The size of a direct tail call does not depend on its fields. -/
theorem codeSize_directCode (guard teardown : List Instr) (hb : IsField b) (ht : IsField t) :
    codeSize (directCode guard teardown b t) =
      codeSize guard + (siteSize + codeSize teardown + siteSize) := by
  simp only [directCode, codeSize_append, codeSize_cons, codeSize_nil, hb.size_eq, ht.size_eq]
  omega

/-- A direct tail call as it is emitted: checks whose branches lead to its end, a jump to the end
too, the teardown, and nothing in place of the jump to the target. -/
theorem direct_guards {descriptor : Nat} {code : List Instr} {site : DirectSite}
    (h : direct frame depth descriptor = .ok (code, site)) :
    ∃ guard, code = directCode guard (frame.teardown depth)
        (.jmp (.dword (Int32.ofNat (codeSize (frame.teardown depth) + siteSize)))) (.nop 4) ∧
      site = ⟨descriptor, codeSize guard, codeSize guard + siteSize +
        codeSize (frame.teardown depth)⟩ ∧
      Guards frame guard (siteSize + codeSize (frame.teardown depth) + siteSize) := by
  obtain ⟨exhausted, rfl, rfl, hexhausted⟩ := direct_eq_ok h
  refine ⟨counting depth (.byte exhausted), rfl, rfl, ?_⟩
  rw [counting, List.append_assoc]
  refine (guards_checkCount frame _ _).append
    ((guards_branch .aboveEqual (.byte exhausted) ?_).append (guards_bumpCount frame _ _))
  rw [SignedField.value, hexhausted, codeSize_bumpCount, siteSize]
  omega

section Teardown

variable {doors exits : Nat → Prop} {start : Nat}

/-- The teardown goes on from one instruction to the next. -/
theorem plain_teardown (frame : Frame) (depth : UInt32) :
    ∀ i ∈ frame.teardown depth, i.isPlain = true := by
  intro i hi
  have hgoes := List.all_eq_true.mp (teardown_goesOn frame depth) i hi
  cases i with
  | jmp | jcc | jmpReg | call | ret => cases hgoes
  | _ => rfl

/-- The teardown writes the registers that it restores, and two that may always be written. -/
theorem writesOnly_teardown (frame : Frame) (depth : UInt32) :
    WritesOnly frame.writable (frame.teardown depth) := by
  obtain ⟨hrax, _, _, hrsp, _⟩ := frame.scratch_writable
  refine writesOnly_append.mpr ⟨writesOnly_append.mpr ⟨frame.writesOnly_pops, ?_⟩, ?_⟩
  · simp [Instr.written, hrax, hrsp]
  · split
    · exact writesOnly_nil
    · exact writesOnly_single rfl hrsp

/-- A direct tail call can be read back, whatever its fields hold. -/
theorem Guards.encodable_directCode (h : Guards frame guard behind) (hb : IsField b)
    (ht : IsField t) : Encodable (directCode guard (frame.teardown depth) b t) := by
  simp only [directCode, encodable_append, encodable_cons, encodable_nil, h.encodable, hb.own,
    ht.own, encodable_teardown, and_self]

/-- A direct tail call writes what may be written, whatever its fields hold. -/
theorem Guards.writesOnly_directCode (h : Guards frame guard behind) (hb : IsField b)
    (ht : IsField t) :
    WritesOnly frame.writable (directCode guard (frame.teardown depth) b t) := by
  have hfield : ∀ i, IsField i → WritesOnly frame.writable [i] := by
    intro i hi
    rw [writesOnly_cons, hi.written_eq]
    simp
  simp only [directCode, writesOnly_append, h.writes, hfield b hb, hfield t ht,
    writesOnly_teardown, and_self]

/-- The checks lead to a door at the end of the tail call. -/
theorem Guards.jumps_to_door {tail : List Instr} (h : Guards frame guard behind)
    (hdoor : doors (start + codeSize guard + behind)) :
    JumpsTo (Levelled.Targets doors start tail) start guard :=
  (h.jumps start).mono fun _ ht => ⟨_, ht, .inl hdoor⟩

/-- Behind its checks, a tail call that takes the frame down leaves the program. -/
theorem Guards.levelled_leaving {middle : List Instr} {last : Instr}
    (h : Guards frame guard behind) (hdoor : doors (start + codeSize guard + behind))
    (hmiddle : ∀ i ∈ middle, i.isPlain = true) (hcall : ∀ rel, last ≠ .call rel)
    (hoff : last.passesOn = false)
    (hleaves : last.distance? = none ∨ exits (start + codeSize guard + codeSize middle)) :
    Levelled doors exits start (guard ++ (middle ++ [last])) := by
  refine .of_guard h.still (h.jumps_to_door hdoor) ?_ ?_ ?_
  · intro front i back hsplit
    rcases List.eq_nil_or_concat back with rfl | ⟨rest, j, rfl⟩
    · obtain ⟨rfl, rfl⟩ := List.append_singleton_inj.mp hsplit
      exact hleaves.imp id fun hexit => ⟨hexit, hoff⟩
    · rw [List.concat_eq_append, ← List.cons_append, ← List.append_assoc] at hsplit
      obtain ⟨rfl, _⟩ := List.append_inj' hsplit rfl
      exact .inl (Instr.distance?_of_isPlain (hmiddle i (by simp)))
  · intro rel hmem
    rcases List.mem_append.mp hmem with hmem | hmem
    · cases hmiddle _ hmem
    · exact hcall rel (List.mem_singleton.mp hmem).symm
  · intro front i hsplit hon
    rw [← List.append_assoc] at hsplit
    obtain ⟨_, rfl⟩ := List.append_singleton_inj.mp hsplit
    rw [hoff] at hon
    cases hon

/-- Behind its checks, a tail call without a target goes around its teardown. -/
theorem Guards.levelled_bypassing {rel : SignedField} (h : Guards frame guard behind)
    (hdoor : doors (start + codeSize guard + behind))
    (hrel : ((codeSize [Instr.jmp rel] : Nat) : Int) + rel.value = behind) :
    Levelled doors exits start (guard ++ [.jmp rel]) := by
  refine .still ?_ (jumpsTo_append.mpr ⟨h.jumps_to_door hdoor, fun distance hd => ?_, trivial⟩) ?_
  · exact List.forall_mem_append.mpr ⟨h.still, List.forall_mem_singleton.mpr rfl⟩
  · obtain rfl := Option.some.inj hd
    refine ⟨start + codeSize guard + behind, ?_, .inl hdoor⟩
    rw [codeSize_cons, codeSize_nil] at hrel
    omega
  · intro front i hsplit hon
    obtain ⟨_, rfl⟩ := List.append_singleton_inj.mp hsplit
    cases hon

end Teardown

end TailCall

end NativeForge
