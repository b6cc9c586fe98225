import NativeForge.Proofs.BranchForms

/-!
# Lowering an operation again

Two passes over one program differ in their offset maps, in the address of the image, in what
they know about call targets, and in whether they pad. Only branches read the offset map and only
calls read addresses, so an operation that is neither is lowered to the same fragment by all
passes. A branch is lowered to the same fragment when the offset map is the same and the slot has
the length that the map gives it, also when padding is switched on in between. A call keeps
everything but the last four bytes, its displacement.
-/

namespace NativeForge

open X64 Virtual

/-- Two fragments for one operation that differ at most in the displacement of a call and in
whether the call is resolved. -/
inductive Fragment.Alike (operation : Operation) : Fragment → Fragment → Prop
  /-- The fragments are the same. -/
  | same (f : Fragment) : Alike operation f f
  /-- The fragments end with a call. -/
  | call {id : Int32} {subprogram : Bool} (h : operation = .call id subprogram)
      (front : List Instr) (rel rel' : Int32) (pending pending' : Bool) :
      Alike operation { code := front ++ [.call rel], pending := pending }
        { code := front ++ [.call rel'], pending := pending' }

namespace Fragment.Alike

variable {operation : Operation} {f g : Fragment}

/-- Alike fragments have one length. -/
theorem codeSize_eq (h : Alike operation f g) : codeSize g.code = codeSize f.code := by
  cases h with
  | same => rfl
  | call h front rel rel' => simp

/-- Alike fragments clear the same register on a fault. -/
theorem probe_eq (h : Alike operation f g) : g.probe = f.probe := by
  cases h <;> rfl

/-- Alike fragments have the same patchable fields. -/
theorem direct_eq (h : Alike operation f g) : g.direct = f.direct := by
  cases h <;> rfl

/-- Alike fragments are both the epilogue or both not. -/
theorem epilogue_eq (h : Alike operation f g) : g.epilogue = f.epilogue := by
  cases h <;> rfl

/-- The bytes of alike fragments differ at most in the last four bytes of a call. -/
theorem getElem?_encodeAll (h : Alike operation f g) {j : Nat}
    (hj : (∃ id subprogram, operation = .call id subprogram) → j + 4 < codeSize f.code) :
    (encodeAll g.code)[j]? = (encodeAll f.code)[j]? := by
  cases h with
  | same => rfl
  | call h front rel rel' =>
    have hlt := hj ⟨_, _, h⟩
    rw [codeSize_append, codeSize_cons, codeSize_nil, size_call] at hlt
    simp only [encodeAll_append, encodeAll_cons, encodeAll_nil, List.append_nil, Instr.encode]
    by_cases hfront : j < codeSize front
    · rw [List.getElem?_append_left (by rw [length_encodeAll]; exact hfront),
        List.getElem?_append_left (by rw [length_encodeAll]; exact hfront)]
    · -- the byte in front of the displacement is the opcode of the call
      have hj0 : j - codeSize front = 0 := by omega
      rw [List.getElem?_append_right (by rw [length_encodeAll]; omega),
        List.getElem?_append_right (by rw [length_encodeAll]; omega), length_encodeAll, hj0]
      rfl

end Fragment.Alike

/-- Two passes over one program for one target. -/
structure Pass.Akin (p q : Pass) : Prop where
  /-- The frames are the same. -/
  frame_eq : q.frame = p.frame
  /-- The targets are the same. -/
  abi_eq : q.abi = p.abi
  /-- The programs have equally many descriptors. -/
  descriptors_eq : q.descriptors = p.descriptors

namespace Pass

variable {p q : Pass} {depth : UInt32} {index : Nat}

/-- A pass that lowers slot `index` again keeps the offsets, and it keeps the padding or switches it
on where the slot has the length that the offsets give it. -/
structure Repeats (p q : Pass) (index size : Nat) : Prop where
  /-- The offsets are the same. -/
  offsets_eq : q.offsets = p.offsets
  /-- A slot that is padded for the first time keeps its length. -/
  padding_eq : q.padding = p.padding ∨
    q.padding = true ∧ p.offset (index + 1) = p.offset index + size

/-- Offsets of a repeated pass are the same. -/
theorem offset_eq (h : q.offsets = p.offsets) (k : Nat) : q.offset k = p.offset k := by
  rw [offset, offset, h]

/-- Distances of a repeated pass are the same. -/
theorem jumpDistance_again (h : q.offsets = p.offsets) (off : Int16) :
    q.jumpDistance index off = p.jumpDistance index off := by
  unfold jumpDistance
  simp only [offset_eq h, h]

/-- Padding that filled a slot up to the length that it has is repeated, also where nothing was
filled up before. -/
theorem pad_again {emitted reserved : Nat} {allowed : List Int} {code : List Instr}
    (h : p.pad index emitted reserved allowed = .ok code)
    (hr : p.Repeats q index (emitted + codeSize code + reserved)) (hz : (0 : Int) ∈ allowed) :
    q.pad index emitted reserved allowed = .ok code := by
  have hoff := offset_eq hr.offsets_eq
  by_cases hp : q.padding = p.padding
  · unfold pad at h ⊢
    simp only [hoff, hp]
    exact h
  · obtain ⟨hq, hspan⟩ := hr.padding_eq.resolve_left hp
    have hf : p.padding = false := by
      rw [hq] at hp
      simpa using Ne.symm hp
    have hcode : code = [] := by
      unfold pad at h
      rw [hf] at h
      exact (Except.ok.inj h).symm
    subst hcode
    have hcount : (p.offset (index + 1) : Int) - p.offset index - emitted - reserved = 0 := by
      rw [codeSize_nil] at hspan
      omega
    unfold pad
    simp only [hoff, hq, if_true, hcount, if_pos hz]
    rfl

/-- A jump is repeated. -/
theorem jump_again {distance : Int} {mayVanish : Bool} {code : List Instr}
    (h : p.jump index distance mayVanish = .ok code) (hr : p.Repeats q index (codeSize code)) :
    q.jump index distance mayVanish = .ok code := by
  unfold jump at h ⊢
  split
  · rename_i hz
    rw [if_pos hz] at h
    exact pad_again h ⟨hr.offsets_eq, by simpa using hr.padding_eq⟩ (by simp)
  · rename_i hz
    rw [if_neg hz] at h
    split
    · rename_i h8
      rw [if_pos h8] at h
      obtain ⟨filler, hf, h⟩ := bind_eq_ok.mp h
      obtain rfl := pure_eq_ok.mp h
      exact bind_eq_ok.mpr
        ⟨filler, pad_again hf ⟨hr.offsets_eq, by simpa using hr.padding_eq⟩ (by simp), rfl⟩
    · rename_i h8
      rw [if_neg h8] at h
      exact h

/-- A conditional jump is repeated. -/
theorem branch_again {cond : Condition} {size : OpSize} {dst : VReg} {src : Operand} {off : Int16}
    {code : List Instr} (h : p.branch index cond size dst src off = .ok code)
    (hr : p.Repeats q index (codeSize code)) :
    q.branch index cond size dst src off = .ok code := by
  unfold branch at h ⊢
  obtain ⟨distance, hd, h⟩ := bind_eq_ok.mp h
  refine bind_eq_ok.mpr ⟨distance, (jumpDistance_again hr.offsets_eq off).trans hd, ?_⟩
  split
  · rename_i h8
    rw [if_pos h8] at h
    obtain ⟨filler, hf, h⟩ := bind_eq_ok.mp h
    obtain rfl := pure_eq_ok.mp h
    refine bind_eq_ok.mpr ⟨filler, pad_again hf ⟨hr.offsets_eq, ?_⟩ (by simp), rfl⟩
    simpa [Nat.add_assoc] using hr.padding_eq
  · rename_i h8
    rw [if_neg h8] at h
    exact h

/-- Handing over the counter reads only the frame. -/
theorem passCounter_akin (ha : p.Akin q) : q.passCounter depth = p.passCounter depth := by
  unfold passCounter
  rw [ha.frame_eq]

/-- A tail call reads only the frame, the target and the descriptors. -/
theorem tailCall_akin (ha : p.Akin q) (id : Int32) : q.tailCall depth id = p.tailCall depth id := by
  unfold tailCall
  rw [ha.frame_eq, ha.abi_eq, ha.descriptors_eq]

/-- An operation that is neither a branch nor a call is lowered the same way by all passes. -/
theorem lower_akin (ha : p.Akin q) {epilogue epilogue' : Option Nat} {operation : Operation}
    (he : epilogue'.isSome = epilogue.isSome) (hform : form? epilogue.isSome operation = none)
    (hcall : ∀ id subprogram, operation ≠ .call id subprogram) :
    q.lower depth index epilogue' operation = p.lower depth index epilogue operation := by
  cases operation with
  | jump off => cases hform
  | branch cond size dst src off => cases hform
  | exit =>
    cases epilogue with
    | some start => cases hform
    | none =>
      obtain rfl : epilogue' = none := by simpa using he
      show Except.ok _ = Except.ok _
      rw [ha.frame_eq]
  | call id subprogram => exact absurd rfl (hcall id subprogram)
  | tailCall id => exact tailCall_akin ha id
  | probe ext width dst base off =>
    show Except.ok _ = Except.ok _
    rw [ha.abi_eq]
  | _ => rfl

/-- A branch is lowered again to the same fragment. -/
theorem lower_branch_again {epilogue : Option Nat} {operation : Operation} {form : BranchForm}
    {f : Fragment} (hform : form? epilogue.isSome operation = some form)
    (h : p.lower depth index epilogue operation = .ok f)
    (hr : p.Repeats q index (codeSize f.code)) :
    q.lower depth index epilogue operation = .ok f := by
  cases operation with
  | jump off =>
    obtain ⟨distance, code, hd, hj, rfl⟩ := lower_jump h
    have hcode := jump_again hj hr
    rw [lower]
    rcases hd with ⟨ho, rfl⟩ | ⟨ho, hd⟩
    · rw [if_pos ho]
      exact bind_eq_ok.mpr ⟨-2, rfl, bind_eq_ok.mpr ⟨code, hcode, rfl⟩⟩
    · rw [if_neg ho]
      exact bind_eq_ok.mpr ⟨distance, (jumpDistance_again hr.offsets_eq off).trans hd,
        bind_eq_ok.mpr ⟨code, hcode, rfl⟩⟩
  | branch cond size dst src off =>
    obtain ⟨code, hc, h⟩ := bind_eq_ok.mp h
    obtain rfl := pure_eq_ok.mp h
    exact bind_eq_ok.mpr ⟨code, branch_again hc hr, rfl⟩
  | exit =>
    cases epilogue with
    | none => cases hform
    | some start =>
      obtain ⟨code, hc, h⟩ := bind_eq_ok.mp h
      obtain rfl := pure_eq_ok.mp h
      refine bind_eq_ok.mpr ⟨code, ?_, rfl⟩
      rw [offset_eq hr.offsets_eq]
      exact jump_again hc hr
  | _ => cases hform

/-- Two lowerings of one call differ at most in its displacement, and in whether it is resolved. -/
theorem call_alike (ha : p.Akin q) {id : Int32} {subprogram : Bool} {f g : Fragment}
    (h : p.call depth index id subprogram = .ok f)
    (hg : q.call depth index id subprogram = .ok g) :
    Fragment.Alike (.call id subprogram) f g ∧
      (q.resolve = p.resolve → g.pending = f.pending) := by
  obtain ⟨_, counter, rel, hc, _, rfl⟩ := call_eq_ok.mp h
  obtain ⟨_, counter', rel', hc', _, rfl⟩ := call_eq_ok.mp hg
  obtain rfl : counter = counter' := by
    rw [passCounter_akin ha, hc] at hc'
    exact Except.ok.inj hc'
  exact ⟨.call rfl counter rel rel' _ _, fun hres => by rw [hres]⟩

/-- An operation that is no branch is lowered alike by all passes. -/
theorem lower_alike_of_form_none (ha : p.Akin q) {epilogue epilogue' : Option Nat}
    {operation : Operation} {f g : Fragment} (he : epilogue'.isSome = epilogue.isSome)
    (hform : form? epilogue.isSome operation = none)
    (h : p.lower depth index epilogue operation = .ok f)
    (hg : q.lower depth index epilogue' operation = .ok g) :
    Fragment.Alike operation f g ∧ (q.resolve = p.resolve → g.pending = f.pending) := by
  by_cases hcall : ∃ id subprogram, operation = .call id subprogram
  · obtain ⟨id, subprogram, rfl⟩ := hcall
    exact call_alike ha h hg
  · have heq : q.lower depth index epilogue' operation = p.lower depth index epilogue operation :=
      lower_akin ha he hform (fun id subprogram ho => hcall ⟨id, subprogram, ho⟩)
    rw [heq, h] at hg
    cases hg
    exact ⟨.same f, fun _ => rfl⟩

/-- An operation is lowered again alike, by a pass that knows another address of the image or other
call targets. -/
theorem lower_again (ha : p.Akin q) {epilogue : Option Nat} {operation : Operation}
    {f g : Fragment} (h : p.lower depth index epilogue operation = .ok f)
    (hr : p.Repeats q index (codeSize f.code))
    (hg : q.lower depth index epilogue operation = .ok g) :
    Fragment.Alike operation f g ∧ (q.resolve = p.resolve → g.pending = f.pending) := by
  cases hform : form? epilogue.isSome operation with
  | none => exact lower_alike_of_form_none ha rfl hform h hg
  | some form =>
    rw [lower_branch_again hform h hr] at hg
    cases hg
    exact ⟨.same f, fun _ => rfl⟩

/-- An operation that is no call is lowered again to the same fragment. -/
theorem lower_again_of_ne_call (ha : p.Akin q) {epilogue : Option Nat} {operation : Operation}
    {f : Fragment} (hcall : ∀ id subprogram, operation ≠ .call id subprogram)
    (h : p.lower depth index epilogue operation = .ok f)
    (hr : p.Repeats q index (codeSize f.code)) :
    q.lower depth index epilogue operation = .ok f := by
  cases hform : form? epilogue.isSome operation with
  | none => exact (lower_akin ha rfl hform hcall).trans h
  | some form => exact lower_branch_again hform h hr

/-- The failure is a crash, or a call that does not reach its target. -/
def IsCallFailure (f : Failure Error) : Prop :=
  f = .crash ∨ ∃ v, f = .reported (.outOfRange .callDisplacement v)

/-- A call displacement fails only with a crash or its range. -/
theorem callDisplacement_isCallFailure (before : Nat) (target : Option Address) :
    FailsOnly IsCallFailure (p.callDisplacement index before target) := by
  have hcrash : ∀ {α : Type} {r : Result Error α}, FailsOnly (· = .crash) r →
      FailsOnly IsCallFailure r := fun h f hf => .inl (h f hf)
  have hsigned : ∀ v, FailsOnly (· = .crash) (signedWord64 v : Result Error Int) := fun v => by
    unfold signedWord64
    exact .ite (failsOnly_ok _) (failsOnly_error.mpr rfl)
  have hplus : ∀ (a : Address) n, FailsOnly (· = .crash) (a.plus n : Result Error Address) :=
    fun a n f hf => plus_eq_error hf
  unfold callDisplacement
  split
  · exact .bind (hcrash (hplus _ _)) fun _ => .bind (hcrash (hplus _ _)) fun _ =>
      .bind (hcrash (hsigned _)) fun _ => .bind (hcrash (hsigned _)) fun _ =>
      .ite (failsOnly_pure _) (failsOnly_error.mpr (.inr ⟨_, rfl⟩))
  · exact failsOnly_ok _

/-- An operation that was lowered is lowered again with another address of the image, unless it is
a call that does not reach its target from there. -/
theorem lower_again_failsOnly (ha : p.Akin q) (hres : q.resolve = p.resolve)
    {epilogue : Option Nat} {operation : Operation} {f : Fragment}
    (h : p.lower depth index epilogue operation = .ok f)
    (hr : p.Repeats q index (codeSize f.code)) :
    FailsOnly IsCallFailure (q.lower depth index epilogue operation) := by
  by_cases hcall : ∃ id subprogram, operation = .call id subprogram
  · obtain ⟨id, subprogram, rfl⟩ := hcall
    obtain ⟨hknown, counter, _, hc, _⟩ := call_eq_ok.mp h
    rw [lower, call, hres, if_neg (Bool.eq_false_iff.mp hknown), passCounter_akin ha, hc]
    exact .bind (failsOnly_ok _) fun _ =>
      .bind (callDisplacement_isCallFailure _ _) fun _ => failsOnly_pure _
  · rw [lower_again_of_ne_call ha (fun id subprogram ho => hcall ⟨id, subprogram, ho⟩) h hr]
    exact failsOnly_ok _

end Pass

end NativeForge
