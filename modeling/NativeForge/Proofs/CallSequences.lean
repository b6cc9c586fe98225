import Mathlib.Algebra.GroupWithZero.Nat
import NativeForge.Pass
import NativeForge.Proofs.Outcome

/-!
# Sequences of calls and tail calls

Calls and tail calls are lowered to fixed sequences of instructions. A sequence that was lowered is
taken apart here once: its instructions in order, and where its branches lead. Later proofs work
with the parts and do not look at how they are put together.
-/

namespace NativeForge

open X64 Virtual Target

namespace X64

/-- No instructions take no bytes. -/
@[simp]
theorem codeSize_nil : codeSize [] = 0 := rfl

/-- The size of a sequence is the size of its head and of its tail. -/
@[simp]
theorem codeSize_cons (i : Instr) (rest : List Instr) :
    codeSize (i :: rest) = i.size + codeSize rest := rfl

/-- Sizes of sequences add up. -/
@[simp]
theorem codeSize_append (front back : List Instr) :
    codeSize (front ++ back) = codeSize front + codeSize back := by
  induction front with
  | nil => simp
  | cons i rest ih => rw [List.cons_append, codeSize_cons, codeSize_cons, ih, Nat.add_assoc]

/-- No instructions encode to no bytes. -/
@[simp]
theorem encodeAll_nil : encodeAll [] = [] := rfl

/-- The bytes of a sequence are those of its head and of its tail. -/
@[simp]
theorem encodeAll_cons (i : Instr) (rest : List Instr) :
    encodeAll (i :: rest) = i.encode ++ encodeAll rest := by
  simp [encodeAll]

/-- Bytes of sequences stand one behind the other. -/
@[simp]
theorem encodeAll_append (front back : List Instr) :
    encodeAll (front ++ back) = encodeAll front ++ encodeAll back := by
  simp [encodeAll]

end X64

namespace TailCall

variable {frame : Frame} {depth : UInt32} {code : List Instr}

/-- A branch around a tail call takes one byte for the distance that was asked for. -/
theorem shortBranch_eq_ok {cond : Cond} {distance : Nat} {i : Instr}
    (h : shortBranch cond distance = .ok i) :
    ∃ rel : Int8, i = .jcc cond (.byte rel) ∧ rel.toInt = distance := by
  unfold shortBranch at h
  split at h
  · rename_i hfits
    have hb := fitsInt8_iff.mp hfits
    cases h
    exact ⟨_, rfl, Int8.toInt_ofInt_of_le (by omega) (by omega)⟩
  · exact absurd h (defect_ne_ok _ _)

/-- The check of the counter takes nine bytes. -/
theorem codeSize_checkCount (offset : Int32) : codeSize (checkCount offset) = 9 := rfl

/-- The count takes nine bytes. -/
theorem codeSize_bumpCount (offset : Int32) : codeSize (bumpCount offset) = 9 := rfl

/-- Looking up a slot takes eleven bytes before its branch. -/
theorem codeSize_lookup (offset : Int32) :
    codeSize [.loadIndexed .rcx .rsi .rdx offset, .test .wide .rcx .rcx] = 11 := rfl

/-- The check of the counter and the count of a tail call, with the branch for an exhausted
counter. -/
def counting (depth : UInt32) (exhausted : SignedField) : List Instr :=
  checkCount (Frame.counterOffset depth) ++ [.jcc .aboveEqual exhausted] ++
    bumpCount (Frame.counterOffset depth)

/-- Counting a tail call takes twenty bytes. -/
theorem codeSize_counting (depth : UInt32) (exhausted : Int8) :
    codeSize (counting depth (.byte exhausted)) = 20 := rfl

/-- The end of an indirect tail call before its jump: the address of the target, past its first
bytes. -/
def landing (abi : Abi) : List Instr :=
  [.load .double .rcx .rcx (.shortest abi.programCodeOffset),
    .aluImm .add .wide .rcx (.byte (Int8.ofNat tailCallSkip))]

/-- An indirect tail call: the index is compared with the length of the array, the call is counted
and the slot is looked up, each with a branch to the end; then the frame is taken down, and a jump
leads to the target. -/
theorem indirect_eq_ok {abi : Abi} (h : indirect frame depth abi = .ok code) :
    ∃ outOfBounds exhausted empty : Int8,
      code = [.mov .narrow .rdx .rdx, .cmpMem .narrow .rsi .rdx (.shortest abi.arrayCountOffset),
          .jcc .belowEqual (.byte outOfBounds)] ++ counting depth (.byte exhausted) ++
        [.loadIndexed .rcx .rsi .rdx abi.arraySlotsOffset, .test .wide .rcx .rcx,
          .jcc .equal (.byte empty)] ++
        (frame.teardown depth ++ landing abi ++ [.jmpReg .rcx]) ∧
      empty.toInt = codeSize (frame.teardown depth ++ landing abi ++ [.jmpReg .rcx]) ∧
      exhausted.toInt = empty.toInt + 22 ∧ outOfBounds.toInt = empty.toInt + 33 := by
  unfold indirect at h
  obtain ⟨_, h1, h⟩ := bind_eq_ok.mp h
  obtain ⟨_, h2, h⟩ := bind_eq_ok.mp h
  obtain ⟨_, h3, h⟩ := bind_eq_ok.mp h
  obtain rfl := pure_eq_ok.mp h
  obtain ⟨outOfBounds, rfl, hbounds⟩ := shortBranch_eq_ok h1
  obtain ⟨exhausted, rfl, hexhausted⟩ := shortBranch_eq_ok h2
  obtain ⟨empty, rfl, hempty⟩ := shortBranch_eq_ok h3
  refine ⟨outOfBounds, exhausted, empty, by simp [counting, landing], ?_, ?_, ?_⟩
  · rw [hempty, landing, List.append_assoc]
    rfl
  · rw [hexhausted, hempty, codeSize_append, codeSize_bumpCount, codeSize_lookup, shortBranchSize]
    omega
  · rw [hbounds, hempty, codeSize_append, codeSize_checkCount, codeSize_bumpCount, codeSize_lookup,
      shortBranchSize]
    omega

/-- A direct tail call: the call is counted, the bypass jumps over the teardown and the target
field, and the target field ends the sequence. -/
theorem direct_eq_ok {descriptor : Nat} {site : DirectSite}
    (h : direct frame depth descriptor = .ok (code, site)) :
    ∃ exhausted : Int8,
      code = counting depth (.byte exhausted) ++
        [.jmp (.dword (Int32.ofNat (codeSize (frame.teardown depth) + siteSize)))] ++
        frame.teardown depth ++ [.nop 4] ∧
      site = ⟨descriptor, 20, 25 + codeSize (frame.teardown depth)⟩ ∧
      exhausted.toInt = codeSize (frame.teardown depth) + 19 := by
  unfold direct at h
  obtain ⟨_, hs, h⟩ := bind_eq_ok.mp h
  obtain ⟨exhausted, rfl, hexhausted⟩ := shortBranch_eq_ok hs
  cases pure_eq_ok.mp h
  refine ⟨exhausted, rfl, rfl, ?_⟩
  rw [hexhausted, codeSize_bumpCount, siteSize]
  omega

end TailCall

namespace Pass

variable {p : Pass} {depth : UInt32} {index : Nat} {f : Fragment}

/-- A frame with a counter hands it over in one load; the other frames hand over nothing. -/
theorem passCounter_eq_ok {counter : List Instr} (h : p.passCounter depth = .ok counter) :
    (p.frame.counted = true ∧ ∃ off : Int32, off.toInt = -depth.toInt32.toInt - 8 ∧
        counter = [.load .double .rax .rbp (.dword off)]) ∨
      (p.frame.counted = false ∧ counter = []) := by
  unfold passCounter at h
  split at h
  · rename_i hcounted
    obtain ⟨negated, hnegated, h⟩ := bind_eq_ok.mp h
    obtain ⟨off, hoff, h⟩ := bind_eq_ok.mp h
    obtain rfl := pure_eq_ok.mp h
    refine .inl ⟨hcounted, off, ?_, rfl⟩
    rw [signedWord32_eq_ok.mp hoff, signedWord32_eq_ok.mp hnegated]
  · rename_i hcounted
    exact .inr ⟨Bool.eq_false_iff.mpr hcounted, (Except.ok.inj h).symm⟩

/-- A call that has an address, or may wait for one, hands over the counter and calls. -/
theorem call_eq_ok {id : Int32} {subprogram : Bool} :
    p.call depth index id subprogram = .ok f ↔
      ((p.resolve ⟨index, id, subprogram⟩).isNone && !subprogram) = false ∧
      ∃ counter rel, p.passCounter depth = .ok counter ∧
        p.callDisplacement index (codeSize counter) (p.resolve ⟨index, id, subprogram⟩) = .ok rel ∧
        f = { code := counter ++ [.call rel],
              pending := (p.resolve ⟨index, id, subprogram⟩).isNone } := by
  unfold call
  dsimp only
  split
  · rename_i hunknown
    rw [hunknown]
    exact ⟨fun h => absurd h (defect_ne_ok _ _), fun h => absurd h.1 (by decide)⟩
  · rename_i hknown
    constructor
    · intro h
      obtain ⟨counter, hcounter, h⟩ := bind_eq_ok.mp h
      obtain ⟨rel, hrel, h⟩ := bind_eq_ok.mp h
      exact ⟨Bool.eq_false_iff.mpr hknown, counter, rel, hcounter, hrel, (pure_eq_ok.mp h).symm⟩
    · rintro ⟨_, counter, rel, hcounter, hrel, rfl⟩
      exact bind_eq_ok.mpr ⟨counter, hcounter, bind_eq_ok.mpr ⟨rel, hrel, rfl⟩⟩

/-- A tail call takes the indirect form, or the direct one through a descriptor of the program. -/
theorem tailCall_eq_ok {id : Int32} (h : p.tailCall depth id = .ok f) :
    (id = 0 ∧ ∃ code, TailCall.indirect p.frame depth p.abi = .ok code ∧ f = { code := code }) ∨
      (id ≠ 0 ∧ (id.toInt - 1).toNat < p.descriptors ∧ ∃ code site,
        TailCall.direct p.frame depth (id.toInt - 1).toNat = .ok (code, site) ∧
        f = { code := code, direct := some site }) := by
  unfold tailCall at h
  split at h
  · rename_i hid
    obtain ⟨code, hcode, h⟩ := bind_eq_ok.mp h
    exact .inl ⟨hid, code, hcode, (pure_eq_ok.mp h).symm⟩
  · rename_i hid
    dsimp only at h
    split at h
    · exact absurd h (defect_ne_ok _ _)
    · obtain ⟨⟨code, site⟩, hcode, h⟩ := bind_eq_ok.mp h
      exact .inr ⟨hid, by omega, code, site, hcode, (pure_eq_ok.mp h).symm⟩

end Pass

end NativeForge
