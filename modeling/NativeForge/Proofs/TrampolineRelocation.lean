import Mathlib.Data.List.Forall2
import NativeForge.Proofs.BranchTargets
import NativeForge.Proofs.TrampolineExecution
import NativeForge.Trampoline.Image

/-!
# Trampolines at other addresses

The address of its image decides three things about a trampoline: the displacements of its calls,
the filler behind the wrapped call, which brings the programs behind the function to a multiple of
sixteen, and so the displacements of the branches that lead there. Everything else has a form that
does not depend on the address. So trampolines for one request have the same parts and nearly the
same length, and the room that is reserved before the address is known is enough.
-/

namespace NativeForge.Trampoline

open X64 Target

/-- The displacement of a call. -/
def callField? : Instr → Option Int32
  | .call rel => some rel
  | _ => none

/-- The displacement of a branch from a replacing program to the programs behind the function. -/
def branchField? : Instr → Option Int32
  | .jcc .notEqual (.dword rel) => some rel
  | _ => none

/-- An instruction without its displacement, if it is a call or a branch of a replacing program. -/
def blank : Instr → Instr
  | .call _ => .call 0
  | .jcc .notEqual (.dword _) => .jcc .notEqual (.dword 0)
  | i => i

/-- A displacement does not change the size of an instruction. -/
theorem size_blank (i : Instr) : (blank i).size = i.size := by
  unfold blank
  split <;> rfl

/-- Displacements do not change the size of code. -/
theorem codeSize_map_blank (code : List Instr) : codeSize (code.map blank) = codeSize code := by
  induction code with
  | nil => rfl
  | cons i rest ih => rw [List.map_cons, codeSize_cons, codeSize_cons, size_blank, ih]

/-- The instruction is neither a call nor a branch of a replacing program. -/
structure IsPlain (i : Instr) : Prop where
  /-- It is no call. -/
  call_eq : callField? i = none
  /-- It is no branch of a replacing program. -/
  branch_eq : branchField? i = none

/-- Code without calls and without branches of replacing programs. -/
def Plain (code : List Instr) : Prop := ∀ i ∈ code, IsPlain i

section Plain

variable {i : Instr} {front back : List Instr}

/-- The empty code is plain. -/
theorem plain_nil : Plain [] := List.forall_mem_nil _

/-- Code is plain if its first instruction and the rest are. -/
theorem plain_cons : Plain (i :: back) ↔ IsPlain i ∧ Plain back := List.forall_mem_cons

/-- Code is plain if its parts are. -/
theorem plain_append : Plain (front ++ back) ↔ Plain front ∧ Plain back := List.forall_mem_append

/-- A plain instruction has nothing to forget. -/
theorem IsPlain.blank_eq (h : IsPlain i) : blank i = i := by
  obtain ⟨hcall, hbranch⟩ := h
  unfold blank
  split
  · cases hcall
  · cases hbranch
  · rfl

/-- Plain code has nothing to forget. -/
theorem Plain.map_blank (h : Plain front) : front.map blank = front := by
  induction front with
  | nil => rfl
  | cons i rest ih =>
    obtain ⟨hi, hrest⟩ := plain_cons.mp h
    rw [List.map_cons, hi.blank_eq, ih hrest]

/-- A load of a 32-bit number is plain. -/
theorem isPlain_loadImm32 (dst : Reg) (imm : Int32) (signExtend : Bool) :
    IsPlain (loadImm32 dst imm signExtend) := by
  unfold loadImm32
  split
  · exact ⟨rfl, rfl⟩
  · split <;> exact ⟨rfl, rfl⟩

/-- A load of a number is plain. -/
theorem isPlain_loadImm64 (dst : Reg) (imm : UInt64) : IsPlain (loadImm64 dst imm) := by
  unfold loadImm64
  split
  · exact isPlain_loadImm32 _ _ _
  · exact ⟨rfl, rfl⟩

/-- Arithmetic with a number is plain. -/
theorem isPlain_aluWithImm (op : AluOp) (size : OpSize) (dst : Reg) (imm : Int32) :
    IsPlain (aluWithImm op size dst imm) := by
  unfold aluWithImm
  split
  · exact ⟨rfl, rfl⟩
  · split <;> exact ⟨rfl, rfl⟩

/-- Filler is plain. -/
theorem plain_filler (h : IsFiller front) : Plain front := by
  intro i hi
  obtain ⟨extra, rfl⟩ := h i hi
  exact ⟨rfl, rfl⟩

variable (r : Request) (p : Attached)

/-- Stores of arguments are plain. -/
theorem plain_saveArgs : Plain (saveArgs r) := by
  intro i hi
  obtain ⟨_, _, rfl⟩ := List.mem_map.mp hi
  exact ⟨rfl, rfl⟩

/-- Loads of arguments are plain. -/
theorem plain_restoreArgs : Plain (restoreArgs r) := by
  intro i hi
  obtain ⟨_, _, rfl⟩ := List.mem_map.mp hi
  exact ⟨rfl, rfl⟩

/-- The opening is plain. -/
theorem plain_opening : Plain (opening r) := by
  have hframe := isPlain_aluWithImm .sub .wide .rsp (Int32.ofNat r.slots.size)
  have hcount := isPlain_loadImm64 .rax (UInt64.ofNat r.args.length)
  have hback := isPlain_aluWithImm .sub .wide .rax (Int32.ofNat siteSize)
  unfold opening
  refine plain_append.mpr ⟨plain_append.mpr ⟨?_, ?_⟩, plain_saveArgs r⟩
  · simp only [plain_cons, hframe, hcount, true_and]
    exact ⟨⟨rfl, rfl⟩, ⟨rfl, rfl⟩, ⟨rfl, rfl⟩, ⟨rfl, rfl⟩, plain_nil⟩
  · split
    · simp only [plain_cons, hback, true_and]
      exact ⟨⟨rfl, rfl⟩, ⟨rfl, rfl⟩, plain_nil⟩
    · exact plain_nil

/-- The closing is plain. -/
theorem plain_closing : Plain (closing r) := by
  have hskip := isPlain_aluWithImm .add .wide .rsp 8
  unfold closing
  refine plain_append.mpr ⟨plain_append.mpr ⟨plain_append.mpr ⟨?_, ?_⟩, ?_⟩, ?_⟩
  · split
    · exact plain_cons.mpr ⟨⟨rfl, rfl⟩, plain_nil⟩
    · exact plain_nil
  · exact plain_cons.mpr ⟨⟨rfl, rfl⟩, plain_cons.mpr ⟨⟨rfl, rfl⟩, plain_nil⟩⟩
  · split
    · exact plain_cons.mpr ⟨hskip, plain_nil⟩
    · exact plain_nil
  · exact plain_cons.mpr ⟨⟨rfl, rfl⟩, plain_nil⟩

/-- Clearing the return value is plain. -/
theorem plain_clearing : Plain (clearing r) := by
  unfold clearing clearReturn
  split
  · exact plain_nil
  · exact plain_cons.mpr ⟨isPlain_loadImm32 _ _ _, plain_cons.mpr ⟨⟨rfl, rfl⟩, plain_nil⟩⟩

/-- Reloading the arguments is plain. -/
theorem plain_restoring : Plain (restoring r) := by
  unfold restoring
  split
  · exact plain_restoreArgs r
  · exact plain_nil

/-- The arguments of the hook before a program are plain. -/
theorem plain_enterArgs : Plain (enterArgs r p) := by
  have hcookie := isPlain_loadImm64 .rdi p.cookie
  have hhandle := isPlain_loadImm64 .rdi p.handle
  simp only [enterArgs, plain_cons, hcookie, hhandle, true_and]
  exact ⟨⟨rfl, rfl⟩, ⟨rfl, rfl⟩, plain_nil⟩

/-- The arguments of the hook behind a program are plain. -/
theorem plain_exitArgs : Plain (exitArgs r p) := by
  have hhandle := isPlain_loadImm64 .rdi p.handle
  simp only [exitArgs, plain_cons, hhandle, true_and]
  exact ⟨⟨rfl, rfl⟩, ⟨rfl, rfl⟩, plain_nil⟩

/-- Keeping the return value is plain. -/
theorem plain_keepReturn (keep : Bool) : Plain (keepReturn keep) := by
  cases keep with
  | false => exact plain_nil
  | true => exact plain_cons.mpr ⟨⟨rfl, rfl⟩, plain_nil⟩

/-- Testing the answer of a hook is plain. -/
theorem plain_testAnswer : Plain testAnswer :=
  plain_cons.mpr ⟨⟨rfl, rfl⟩, plain_cons.mpr ⟨⟨rfl, rfl⟩, plain_nil⟩⟩

end Plain

/-- The fields of a kind in code that stands at an offset, each with the offset of its
instruction. -/
def fieldsFrom (field? : Instr → Option Int32) : Nat → List Instr → List (Nat × Int32)
  | _, [] => []
  | offset, i :: rest =>
    ((field? i).map fun rel => (offset, rel)).toList ++ fieldsFrom field? (offset + i.size) rest

section Fields

variable {field? : Instr → Option Int32} {offset : Nat}

/-- The fields of code are those of its parts. -/
theorem fieldsFrom_append (front back : List Instr) :
    fieldsFrom field? offset (front ++ back) =
      fieldsFrom field? offset front ++ fieldsFrom field? (offset + codeSize front) back := by
  induction front generalizing offset with
  | nil => rfl
  | cons i rest ih =>
    rw [List.cons_append, fieldsFrom, fieldsFrom, ih, List.append_assoc, codeSize_cons,
      Nat.add_assoc]

/-- Code without fields of a kind. -/
theorem fieldsFrom_eq_nil {code : List Instr} (h : ∀ i ∈ code, field? i = none) :
    fieldsFrom field? offset code = [] := by
  induction code generalizing offset with
  | nil => rfl
  | cons i rest ih =>
    rw [fieldsFrom, h i (by simp), ih fun j hj => h j (by simp [hj])]
    rfl

/-- Plain code has no calls. -/
theorem Plain.calls_eq {code : List Instr} (h : Plain code) :
    fieldsFrom callField? offset code = [] := fieldsFrom_eq_nil fun i hi => (h i hi).call_eq

/-- Plain code has no branches. -/
theorem Plain.branches_eq {code : List Instr} (h : Plain code) :
    fieldsFrom branchField? offset code = [] := fieldsFrom_eq_nil fun i hi => (h i hi).branch_eq

end Fields

/-- Code that stands at an offset of an image: what it is without displacements, what its calls lead
to, and its branches from replacing programs. -/
structure Renders (base : Option Address) (offset : Nat) (code form : List Instr)
    (targets : List Address) (branches : List (Nat × Int32)) : Prop where
  /-- The code without displacements. -/
  form_eq : code.map blank = form
  /-- Every call leads to its target. -/
  calls : List.Forall₂ (fun target call => Leads base call.1 call.2 target) targets
    (fieldsFrom callField? offset code)
  /-- The branches. -/
  branches_eq : fieldsFrom branchField? offset code = branches

section Renders

variable {base : Option Address} {offset : Nat} {code form code' form' : List Instr}
  {targets targets' : List Address} {branches branches' : List (Nat × Int32)}

/-- Code is as long as it is without displacements. -/
theorem Renders.codeSize_eq (h : Renders base offset code form targets branches) :
    codeSize form = codeSize code := by
  rw [← h.form_eq, codeSize_map_blank]

/-- No code. -/
theorem Renders.nil : Renders base offset [] [] [] [] := ⟨rfl, .nil, rfl⟩

/-- Codes stand one behind the other. -/
theorem Renders.append (h : Renders base offset code form targets branches)
    (h' : Renders base (offset + codeSize code) code' form' targets' branches') :
    Renders base offset (code ++ code') (form ++ form') (targets ++ targets')
      (branches ++ branches') := by
  refine ⟨?_, ?_, ?_⟩
  · rw [List.map_append, h.form_eq, h'.form_eq]
  · rw [fieldsFrom_append]
    exact List.rel_append h.calls h'.calls
  · rw [fieldsFrom_append, h.branches_eq, h'.branches_eq]

/-- Plain code is the same without displacements. -/
theorem Plain.renders (h : Plain code) : Renders base offset code code [] [] := by
  refine ⟨h.map_blank, ?_, h.branches_eq⟩
  rw [h.calls_eq]
  exact .nil

/-- Code behind plain code. -/
theorem Renders.after (h : Renders base (offset + codeSize code) code' form' targets branches)
    (hplain : Plain code) : Renders base offset (code ++ code') (code ++ form') targets branches :=
  hplain.renders.append h

/-- Code behind a plain instruction. -/
theorem Renders.after_one {i : Instr}
    (h : Renders base (offset + i.size) code form targets branches) (hi : IsPlain i) :
    Renders base offset (i :: code) (i :: form) targets branches := by
  have hone : Plain [i] := plain_cons.mpr ⟨hi, plain_nil⟩
  exact h.after hone

/-- Code behind a call. -/
theorem Renders.after_call {rel : Int32} {target : Address}
    (h : Renders base (offset + 5) code form targets branches)
    (hleads : Leads base offset rel target) :
    Renders base offset (.call rel :: code) (.call 0 :: form) (target :: targets) branches := by
  have hcall : Renders base offset [.call rel] [.call 0] [target] [] :=
    ⟨rfl, .cons hleads .nil, rfl⟩
  exact hcall.append h

/-- Code behind a branch of a replacing program. -/
theorem Renders.after_branch {rel : Int32}
    (h : Renders base (offset + vetoSize) code form targets branches) :
    Renders base offset (.jcc .notEqual (.dword rel) :: code)
      (.jcc .notEqual (.dword 0) :: form) targets ((offset, rel) :: branches) := by
  have hbranch : Renders base offset [.jcc .notEqual (.dword rel)]
      [.jcc .notEqual (.dword 0)] [] [(offset, rel)] := ⟨rfl, .nil, rfl⟩
  exact hbranch.append h

end Renders

section Forms

variable (r : Request)

/-- The branch over a program. -/
def skipBranch (keep : Bool) : Instr :=
  .jcc .equal (.byte (Int8.ofInt
    (codeSize (programCall r 0) + codeSize (keepReturn keep) : Nat)))

/-- The code for one program, whatever the address of the image is. -/
def programForm (keep : Bool) (p : Attached) : List Instr :=
  enterArgs r p ++ .call 0 :: (testAnswer ++ skipBranch r keep ::
    (programCall r 0 ++ (keepReturn keep ++ (exitArgs r p ++ [.call 0]))))

/-- The code for a replacing program. -/
def vetoForm (p : Attached) : List Instr :=
  programForm r true p ++ [testReturn, .jcc .notEqual (.dword 0)]

/-- The code for an outer hook. -/
def outerForm : List Instr :=
  if r.flags.callWrapped then [loadImm64 .rdi r.handle, .call 0] else []

/-- The wrapped call. -/
def wrapForm : List Instr :=
  if r.flags.callWrapped then restoreArgs r ++ [.call 0, .store .double .rbp .rax returnSlot]
  else []

/-- The code up to the filler. -/
def frontForm : List Instr :=
  opening r ++ (outerForm r ++ (r.entry.flatMap (programForm r r.flags.returnEntryValue) ++
    (clearing r ++ (r.replace.flatMap (vetoForm r) ++ (wrapForm r ++ site r)))))

/-- The code behind the filler. -/
def backForm : List Instr :=
  r.exit.flatMap (programForm r false) ++ (restoring r ++ (outerForm r ++ closing r))

/-- What the code for one program calls. -/
def Request.programTargets (p : Attached) : List Address := [r.enterHook p, p.entry, r.exitHook p]

/-- What is called once if the wrapped function is called. -/
def Request.onceTargets (target : Address) : List Address :=
  if r.flags.callWrapped then [target] else []

/-- Everything that a trampoline calls, in the order of its code. -/
def Request.targets : List Address :=
  r.onceTargets r.hooks.begin ++ (r.entry.flatMap r.programTargets ++
    (r.replace.flatMap r.programTargets ++ (r.onceTargets r.wrappedTarget ++
      (r.exit.flatMap r.programTargets ++ r.onceTargets r.hooks.finish))))

end Forms

section Parts

variable {r : Request} {base : Option Address} {offset : Nat} {p : Attached} {keep : Bool}
  {code : List Instr}

/-- The branch over a program has one form. -/
theorem InvokeParts.skip_form {enter run exit : Int32} {skip : SignedField}
    (h : InvokeParts r base offset p keep code enter run exit skip) :
    .jcc .equal skip = skipBranch r keep := by
  have hvalue := h.skip_eq
  have hsize := h.size_skip
  cases skip with
  | byte rel =>
    rw [SignedField.value] at hvalue
    have hprogram : codeSize (programCall r run) = codeSize (programCall r 0) := rfl
    rw [skipBranch, ← hprogram, ← hvalue, Int8.ofInt_toInt]
  | dword rel => cases hsize

/-- The code for one program, whatever the address of the image is. -/
theorem InvokeParts.renders {enter run exit : Int32} {skip : SignedField}
    (h : InvokeParts r base offset p keep code enter run exit skip) :
    Renders base offset code (programForm r keep p) (r.programTargets p) [] := by
  have hexit : Renders base _ (exitArgs r p ++ [.call exit]) (exitArgs r p ++ [.call 0])
      [r.exitHook p] [] := (Renders.nil.after_call h.exit_aims).after (plain_exitArgs r p)
  have hrun : Renders base _ (programCall r run) (programCall r 0) [p.entry] [] :=
    (Renders.nil.after_call h.run_aims).after (plain_cons.mpr ⟨⟨rfl, rfl⟩, plain_nil⟩)
  have hbody := hrun.append (hexit.after (plain_keepReturn keep))
  have hskip : Renders base _ (skipBranch r keep :: _) (skipBranch r keep :: _) _ _ :=
    Renders.after_one hbody ⟨rfl, rfl⟩
  rw [h.code_eq, h.skip_form]
  exact ((hskip.after plain_testAnswer).after_call h.enter_aims).after (plain_enterArgs r p)

/-- What is emitted for one program, whatever the address of the image is. -/
theorem invoke_renders (h : invoke r base offset p keep = .ok code) :
    Renders base offset code (programForm r keep p) (r.programTargets p) [] := by
  obtain ⟨_, _, _, _, hparts⟩ := invoke_eq_ok h
  exact hparts.renders

/-- The code for programs, whatever the address of the image is. -/
theorem invokeAll_renders {programs : List Attached}
    (h : invokeAll r base keep offset programs = .ok code) :
    Renders base offset code (programs.flatMap (programForm r keep))
      (programs.flatMap r.programTargets) [] := by
  induction programs generalizing offset code with
  | nil =>
    cases h
    exact .nil
  | cons p rest ih =>
    obtain ⟨first, hfirst, h⟩ := bind_eq_ok.mp h
    obtain ⟨tail, htail, h⟩ := bind_eq_ok.mp h
    obtain rfl := pure_eq_ok.mp h
    exact (invoke_renders hfirst).append (ih htail)

/-- An outer hook is a load of the trampoline's identity and a call, if it is needed. -/
theorem outer_eq_ok {needed : Bool} {hook : Address}
    (h : (if needed then outerHook r base offset hook else pure []) = .ok code) :
    if needed then ∃ rel, code = [loadImm64 .rdi r.handle, .call rel] else code = [] := by
  split at h
  · rename_i hneeded
    obtain ⟨i, hi, h⟩ := bind_eq_ok.mp h
    obtain ⟨rel, rfl, _⟩ := callFrom_leads hi
    rw [if_pos hneeded]
    exact ⟨rel, (pure_eq_ok.mp h).symm⟩
  · rename_i hneeded
    rw [if_neg hneeded]
    exact (pure_eq_ok.mp h).symm

/-- The code for an outer hook, whatever the address of the image is. -/
theorem outer_renders {hook : Address}
    (h : (if r.flags.callWrapped then outerHook r base offset hook else pure []) = .ok code) :
    Renders base offset code (outerForm r) (r.onceTargets hook) [] := by
  unfold outerForm Request.onceTargets
  split at h
  · rename_i hcall
    rw [if_pos hcall, if_pos hcall]
    obtain ⟨i, hi, h⟩ := bind_eq_ok.mp h
    obtain ⟨rel, rfl, hleads⟩ := callFrom_leads hi
    obtain rfl := pure_eq_ok.mp h
    exact (Renders.nil.after_call hleads).after
      (plain_cons.mpr ⟨isPlain_loadImm64 _ _, plain_nil⟩)
  · rename_i hcall
    rw [if_neg hcall, if_neg hcall]
    obtain rfl := pure_eq_ok.mp h
    exact .nil

/-- The wrapped call, whatever the address of the image is. -/
theorem wraps_renders {wrapped : Address}
    (h : (if r.flags.callWrapped then wrappedCall r base offset wrapped else pure []) = .ok code) :
    Renders base offset code (wrapForm r) (r.onceTargets wrapped) [] := by
  unfold wrapForm Request.onceTargets
  split at h
  · rename_i hcall
    rw [if_pos hcall, if_pos hcall]
    obtain ⟨i, hi, h⟩ := bind_eq_ok.mp h
    obtain ⟨rel, rfl, hleads⟩ := callFrom_leads hi
    obtain rfl := pure_eq_ok.mp h
    have hkeep : Renders base (offset + codeSize (restoreArgs r) + 5)
        [.store .double .rbp .rax returnSlot] _ _ _ :=
      (plain_cons.mpr ⟨⟨rfl, rfl⟩, plain_nil⟩ : Plain _).renders
    exact (hkeep.after_call hleads).after (plain_restoreArgs r)
  · rename_i hcall
    rw [if_neg hcall, if_neg hcall]
    obtain rfl := pure_eq_ok.mp h
    exact .nil

/-- The displacement of a branch to a target, from the offset of the branch. -/
def branchTo (target branch : Nat) : Int32 :=
  Int32.ofInt ((target : Int) - (branch + vetoSize))

/-- The code for replacing programs, whatever the address of the image is. -/
theorem vetoes_renders {programs : List Attached} {vs : List Veto}
    (h : vetoes r base offset programs = .ok vs) (target : Nat) :
    Renders base offset (vs.flatMap (Veto.instrs · target)) (programs.flatMap (vetoForm r))
      (programs.flatMap r.programTargets)
      (vs.map fun v => (v.branch, branchTo target v.branch)) := by
  induction programs generalizing offset vs with
  | nil =>
    cases h
    exact .nil
  | cons p rest ih =>
    obtain ⟨run, tail, hrun, htail, rfl⟩ := vetoes_cons_eq_ok h
    have hbranch : Renders base (offset + codeSize run + testReturn.size)
        (.jcc .notEqual (.dword (branchTo target (offset + codeSize run + testReturn.size))) ::
          tail.flatMap (Veto.instrs · target)) _ _ _ := (ih htail).after_branch
    have hall := (invoke_renders hrun).append (hbranch.after_one (i := testReturn) ⟨rfl, rfl⟩)
    simp only [List.flatMap_cons, Veto.instrs, vetoForm, List.append_assoc, List.cons_append,
      List.nil_append, List.map_cons]
    exact hall

end Parts

/-- The parts up to the filler. -/
def Parts.front (p : Parts) (r : Request) : List Instr :=
  opening r ++ (p.begins ++ (p.entries ++ (clearing r ++
    (p.vetoes.flatMap (Veto.instrs · (p.target r)) ++ (p.wraps ++ site r)))))

/-- The filler starts where the parts in front of it end. -/
theorem Parts.front_end (p : Parts) (r : Request) : codeSize (p.front r) = p.gapAt r := by
  unfold Parts.front Parts.gapAt Parts.wrapsAt Parts.vetoesAt Parts.entriesAt
  simp only [codeSize_append, codeSize_vetoes]
  omega

namespace Emitted

variable {r : Request} {base : Option Address} {code : Code} {p : Parts}

/-- A trampoline is what stands in front of the filler, the filler, and what stands behind it. -/
theorem instrs_split (h : Emitted r base code p) :
    code.instrs = p.front r ++ (nops p.gap ++ p.behind r (closing r)) := by
  rw [h.instrs_eq, Parts.before, Parts.front]
  simp only [List.append_assoc]

/-- The parts in front of the filler, whatever the address of the image is. -/
theorem front_renders (h : Emitted r base code p) :
    Renders base 0 (p.front r) (frontForm r)
      (r.onceTargets r.hooks.begin ++ (r.entry.flatMap r.programTargets ++
        (r.replace.flatMap r.programTargets ++ r.onceTargets r.wrappedTarget)))
      (p.vetoes.map fun v => (v.branch, branchTo (p.target r) v.branch)) := by
  have hsite : Renders base (p.wrapsAt r + codeSize p.wraps) (site r) (site r) [] [] :=
    (plain_filler (isFiller_site r)).renders
  have hwraps := (wraps_renders h.wraps_eq).append hsite
  rw [Parts.wrapsAt, ← codeSize_vetoes p.vetoes (p.target r)] at hwraps
  have hvetoes := (vetoes_renders h.vetoes_eq (p.target r)).append hwraps
  have hentries := (invokeAll_renders h.entries_eq).append (hvetoes.after (plain_clearing r))
  have hbegins := (outer_renders h.begins_eq).append hentries
  rw [← Nat.zero_add (codeSize (opening r))] at hbegins
  have hall := hbegins.after (plain_opening r)
  simp only [List.append_nil, List.nil_append, h.wrapped_target] at hall
  exact hall

/-- The parts behind the filler, whatever the address of the image is. -/
theorem behind_renders (h : Emitted r base code p) :
    Renders base (p.target r) (p.behind r (closing r)) (backForm r)
      (r.exit.flatMap r.programTargets ++ r.onceTargets r.hooks.finish) [] := by
  have hclosing : Renders base (p.finishesAt r + codeSize p.finishes) (closing r) (closing r)
      [] [] := (plain_closing r).renders
  have hfinishes := (outer_renders h.finishes_eq).append hclosing
  have hall := (invokeAll_renders h.exits_eq).append (hfinishes.after (plain_restoring r))
  simp only [List.append_nil] at hall
  exact hall

/-- A trampoline, whatever the address of its image is. -/
theorem renders (h : Emitted r base code p) :
    Renders base 0 code.instrs (frontForm r ++ (nops p.gap ++ backForm r)) r.targets
      (p.vetoes.map fun v => (v.branch, branchTo (p.target r) v.branch)) := by
  have hgap : p.gapAt r + codeSize (nops p.gap) = p.target r := by
    rw [codeSize_nops]
    rfl
  have hbehind := h.behind_renders
  rw [← hgap, ← p.front_end, ← Nat.zero_add (codeSize (p.front r))] at hbehind
  have hall := h.front_renders.append (hbehind.after (plain_filler (isFiller_nops p.gap)))
  rw [h.instrs_split]
  simp only [List.append_nil, List.append_assoc] at hall
  exact hall

/-- Where there are branches, the filler brings their target to a multiple of sixteen. -/
theorem aligned (h : Emitted r base code p) (hreplace : r.replace ≠ []) :
    ((base.getD 0).toNat + p.target r) % 16 = 0 := by
  have hgap := h.gap_eq
  rw [if_neg (by simpa using hreplace)] at hgap
  obtain ⟨here, hhere, hgap⟩ := bind_eq_ok.mp hgap
  obtain ⟨aligned, haligned, hgap⟩ := bind_eq_ok.mp hgap
  obtain ⟨_, rfl⟩ := word64_eq_ok.mp hhere
  obtain ⟨_, rfl⟩ := word64_eq_ok.mp haligned
  have hdifference := pure_eq_ok.mp hgap
  unfold roundUp at hdifference
  unfold Parts.target
  omega

/-- Without branches there is no filler. -/
theorem gap_eq_zero (h : Emitted r base code p) (hreplace : r.replace = []) : p.gap = 0 := by
  have hgap := h.gap_eq
  rw [hreplace] at hgap
  exact (pure_eq_ok.mp hgap).symm

end Emitted

/-- The branch of a replacing program in the bytes of a trampoline: `branch` is its offset and its
displacement. It stands directly behind the comparison of the return value with zero, which stands
directly behind the code for the program. -/
structure VetoBranch (r : Request) (base : Option Address) (bytes : List UInt8) (target : Nat)
    (p : Attached) (branch : Nat × Int32) : Prop where
  /-- The code for the program, the comparison and the branch. -/
  stands : ∃ start run, invoke r base start p true = .ok run ∧ HasCode bytes start run ∧
    branch.1 = start + codeSize run + 5 ∧ (bytes.drop (start + codeSize run)).take 11 =
      [0x48, 0x83, 0x7D, 0xF8, 0x00, 0x0F, 0x85] ++ Bytes.ofInt32 branch.2
  /-- The branch leads to the target, up to a multiple of four gigabytes. -/
  leads_mod : ((branch.1 : Int) + 6 + branch.2.toInt - target) % 2 ^ 32 = 0
  /-- It leads to the target itself exactly if that is less than two gigabytes ahead. -/
  leads_iff : (branch.1 : Int) + 6 + branch.2.toInt = target ↔ target < branch.1 + 6 + 2 ^ 31
  /-- In code of less than two gigabytes, the branch leads to the target. -/
  leads : bytes.length < 2 ^ 31 → (branch.1 : Int) + 6 + branch.2.toInt = target

/-- A displacement leads to its target up to a multiple of four gigabytes, and to the target itself
exactly if that is less than two gigabytes ahead. -/
theorem branchTo_leads {target branch : Nat} (hle : branch + 6 ≤ target) :
    ((branch : Int) + 6 + (branchTo target branch).toInt - target) % 2 ^ 32 = 0 ∧
      ((branch : Int) + 6 + (branchTo target branch).toInt = target ↔
        target < branch + 6 + 2 ^ 31) := by
  have hsize : (vetoSize : Int) = 6 := rfl
  have hword : (Int32.size : Int) = 2 ^ 32 := rfl
  have hlt := (branchTo target branch).toInt_lt
  have hmod : ((branch : Int) + 6 + (branchTo target branch).toInt - target) % 2 ^ 32 = 0 := by
    rw [branchTo, Int32.toInt_ofInt, Int.bmod_def, hword]
    split <;> omega
  refine ⟨hmod, fun heq => by omega, fun hnear => ?_⟩
  have hle := (branchTo target branch).le_toInt
  omega

/-- Every replacing program has its branch. -/
theorem vetoes_branches {r : Request} {base : Option Address} {bytes : List UInt8} {offset : Nat}
    {programs : List Attached} {vs : List Veto} {target : Nat}
    (h : vetoes r base offset programs = .ok vs) (hle : offset + vetoesSize vs ≤ target)
    (htarget : target ≤ bytes.length)
    (hcode : HasCode bytes offset (vs.flatMap (Veto.instrs · target))) :
    List.Forall₂ (VetoBranch r base bytes target) programs
      (vs.map fun v => (v.branch, branchTo target v.branch)) := by
  induction programs generalizing offset vs with
  | nil =>
    cases h
    exact .nil
  | cons p rest ih =>
    obtain ⟨run, tail, hrun, htail, rfl⟩ := vetoes_cons_eq_ok h
    have hfive : testReturn.size = 5 := rfl
    have hsix : vetoSize = 6 := rfl
    rw [vetoesSize_cons] at hle
    simp only [List.flatMap_cons, Veto.instrs, List.append_assoc] at hcode
    obtain ⟨hmod, hexact⟩ := branchTo_leads
      (show offset + codeSize run + testReturn.size + 6 ≤ target by omega)
    refine .cons ⟨⟨offset, run, hrun, hcode.left, rfl, ?_⟩, hmod, hexact, fun hshort => ?_⟩ ?_
    · have hpair : HasCode bytes (offset + codeSize run) ([testReturn, .jcc .notEqual (.dword
          (branchTo target (offset + codeSize run + testReturn.size)))] ++ _) := hcode.right
      exact hpair.left.take_eq
    · exact hexact.mpr (by omega)
    · exact ih htail (by omega) hcode.right.tail.tail

namespace Emitted

variable {r : Request} {base : Option Address} {code : Code} {p : Parts}

/-- The parts stand in the bytes, one behind the other. -/
theorem hasCode_start (h : Emitted r base code p) :
    HasCode code.bytes 0 (opening r ++ p.before r (p.behind r (closing r))) :=
  ⟨[], by rw [List.drop_zero, List.append_nil, Code.bytes, h.instrs_eq]⟩

/-- Behind the opening stand the other parts. -/
theorem hasCode_body (h : Emitted r base code p) :
    HasCode code.bytes (codeSize (opening r)) (p.before r (p.behind r (closing r))) := by
  have hbody := h.hasCode_start.right
  rw [Nat.zero_add] at hbody
  exact hbody

/-- The replacing programs stand at their offset, with everything that follows them. -/
theorem hasCode_vetoes (h : Emitted r base code p) :
    HasCode code.bytes (p.vetoesAt r) (p.vetoes.flatMap (Veto.instrs · (p.target r)) ++
      (p.wraps ++ (site r ++ (nops p.gap ++ p.behind r (closing r))))) :=
  h.hasCode_body.right.right.right

/-- The wrapped call stands at its offset, with everything that follows it. -/
theorem hasCode_wraps (h : Emitted r base code p) :
    HasCode code.bytes (p.wrapsAt r)
      (p.wraps ++ (site r ++ (nops p.gap ++ p.behind r (closing r)))) := by
  have hwraps := h.hasCode_vetoes.right
  rw [codeSize_vetoes] at hwraps
  exact hwraps

/-- The length of a trampoline is the length of its form and of its filler. -/
theorem length_bytes (h : Emitted r base code p) :
    code.bytes.length = codeSize (frontForm r) + (p.gap + codeSize (backForm r)) := by
  rw [Code.bytes, length_encodeAll, ← h.renders.codeSize_eq, codeSize_append, codeSize_append,
    codeSize_nops]

/-- The offset of the filler does not depend on the address of the image. -/
theorem gapAt_eq (h : Emitted r base code p) : p.gapAt r = codeSize (frontForm r) := by
  rw [← p.front_end, h.front_renders.codeSize_eq]

/-- The parts behind the filler end the code. -/
theorem drop_target (h : Emitted r base code p) :
    code.bytes.drop (p.target r) = encodeAll (p.behind r (closing r)) := by
  have hsize : (encodeAll (p.front r ++ nops p.gap)).length = p.target r := by
    rw [length_encodeAll, codeSize_append, codeSize_nops, p.front_end]
    rfl
  rw [Code.bytes, h.instrs_split, ← List.append_assoc, encodeAll_append]
  exact List.drop_left' hsize

end Emitted

/-- The fields of a trampoline that are known only when its parts have their places. -/
structure Fixed (r : Request) (base : Option Address) (code : Code) (target : Nat) : Prop where
  /-- There is one branch for every replacing program, all of them to one target. -/
  branches : List.Forall₂ (VetoBranch r base code.bytes target) r.replace
    (fieldsFrom branchField? 0 code.instrs)
  /-- The target is at a multiple of sixteen. -/
  aligned : r.replace ≠ [] → ((base.getD 0).toNat + target) % 16 = 0
  /-- Behind the wrapped call is a site of five bytes, and from there to the target is filler. -/
  filler : r.flags.callWrapped = true → ∃ site start wraps, code.afterCall = some site ∧
    wrappedCall r base start r.wrappedTarget = .ok wraps ∧ HasCode code.bytes start wraps ∧
    site = start + codeSize wraps ∧
    (code.bytes.drop site).take 5 = [0x0F, 0x1F, 0x44, 0x00, 0x00] ∧ site + 5 ≤ target ∧
    NopRun ((code.bytes.drop (site + 5)).take (target - (site + 5)))
  /-- At the target start the programs behind the function, or else the exit. -/
  behind : ∃ exits finishes, invokeAll r base false target r.exit = .ok exits ∧
    finishes.map blank = outerForm r ∧
    code.bytes.drop target = encodeAll (exits ++ (restoring r ++ (finishes ++ closing r)))
  /-- Every call leads to what it is meant to call. -/
  calls : List.Forall₂ (fun target call => Leads base call.1 call.2 target) r.targets
    (fieldsFrom callField? 0 code.instrs)

/-- The fields of an emitted trampoline. -/
theorem Emitted.fixed {r : Request} {base : Option Address} {code : Code} {p : Parts}
    (h : Emitted r base code p) : Fixed r base code (p.target r) := by
  refine ⟨?_, h.aligned, fun hcall => ?_, ?_, h.renders.calls⟩
  · have htarget : p.target r ≤ code.bytes.length := by
      rw [h.length_bytes, ← h.gapAt_eq, Parts.target]
      omega
    rw [h.renders.branches_eq]
    exact vetoes_branches h.vetoes_eq (p.wrapsAt_le r) htarget h.hasCode_vetoes.left
  · have hcode := h.hasCode_wraps
    have hsite : site r = [.nop 4] := if_pos hcall
    have hgapAt : p.gapAt r = p.wrapsAt r + codeSize p.wraps + 5 := by
      rw [Parts.gapAt, hsite]
      rfl
    refine ⟨_, p.wrapsAt r, p.wraps, ?_, ?_, hcode.left, rfl, ?_, ?_, ?_⟩
    · rw [h.afterCall_eq, if_pos hcall]
    · have hwraps := h.wraps_eq
      rw [if_pos hcall, h.wrapped_target] at hwraps
      exact hwraps
    · rw [hsite] at hcode
      exact hcode.right.left.take_eq
    · rw [Parts.target, hgapAt]
      omega
    · have hfiller := hcode.right.right.left.take_eq
      rw [codeSize_nops] at hfiller
      have hgap : p.target r - (p.wrapsAt r + codeSize p.wraps + 5) = p.gap := by
        rw [← hgapAt, Parts.target]
        omega
      rw [hgap, ← hgapAt, Parts.gapAt, hfiller]
      exact (isFiller_nops p.gap).nopRun
  · exact ⟨p.exits, p.finishes, h.exits_eq, (outer_renders h.finishes_eq).form_eq, h.drop_target⟩

/-- Two trampolines for one request are the same but for the displacements of calls and branches and
the length of the filler. -/
structure Relocated (r : Request) (base base' : Option Address) (code code' : Code) : Prop where
  /-- The instructions but for displacements and filler. -/
  instrs_eq : ∃ gap gap', code.instrs.map blank = frontForm r ++ (nops gap ++ backForm r) ∧
    code'.instrs.map blank = frontForm r ++ (nops gap' ++ backForm r)
  /-- One is not much longer than the other. -/
  length_le : code.bytes.length ≤ code'.bytes.length + 15
  /-- They have one length where nothing is aligned, or both images are. -/
  length_eq : r.replace = [] ∨ (base.getD 0).toNat % 16 = 0 ∧ (base'.getD 0).toNat % 16 = 0 →
    code.bytes.length = code'.bytes.length

/-- Emitted trampolines for one request are the same but for their places. -/
theorem Emitted.relocated {r : Request} {base base' : Option Address} {code code' : Code}
    {p p' : Parts} (h : Emitted r base code p) (h' : Emitted r base' code' p') :
    Relocated r base base' code code' := by
  have hlength := h.length_bytes
  have hlength' := h'.length_bytes
  have hgap := gap_lt h.gap_eq
  have hgap' := gap_lt h'.gap_eq
  refine ⟨⟨p.gap, p'.gap, h.renders.form_eq, h'.renders.form_eq⟩, by omega, fun hcase => ?_⟩
  by_cases hreplace : r.replace = []
  · rw [hlength, hlength', h.gap_eq_zero hreplace, h'.gap_eq_zero hreplace]
  · -- both fillers end at a multiple of sixteen and start at one offset
    have haligned := h.aligned hreplace
    have haligned' := h'.aligned hreplace
    obtain ⟨hbase, hbase'⟩ := hcase.resolve_left hreplace
    rw [Parts.target, h.gapAt_eq] at haligned
    rw [Parts.target, h'.gapAt_eq] at haligned'
    omega

/-- What is emitted has parts. -/
theorem emit_eq_ok {r : Request} {base : Option Address} {code : Code}
    (h : emit r base = .ok code) : r.check = .ok () ∧ ∃ p, Emitted r base code p := by
  obtain ⟨_, hcheck, hemit⟩ := bind_eq_ok.mp h
  exact ⟨hcheck, emitChecked_eq_ok hemit⟩

/-- The room that is reserved is enough at every address. -/
theorem length_le_reserved {r : Request} {base : Option Address} {code : Code} {room : Nat}
    (hroom : reservedSize r = .ok room) (h : emit r base = .ok code) :
    code.bytes.length ≤ room := by
  obtain ⟨sized, hsized, hroom⟩ := bind_eq_ok.mp hroom
  obtain rfl := pure_eq_ok.mp hroom
  obtain ⟨_, p, hp⟩ := emit_eq_ok h
  obtain ⟨_, q, hq⟩ := emit_eq_ok hsized
  have hle := (hp.relocated hq).length_le
  omega

/-- Bytes that fit into a writable block are written to it. -/
theorem write_of_fits {image : Image} {data : List UInt8} (hwritable : image.executable = false)
    (hfits : data.length ≤ image.size) (hlt : image.size < 2 ^ 64) :
    image.write 0 data = .ok (image.poke 0 data) := by
  have hstop : (word64 (0 + data.length) : Result MemoryError Nat) = .ok data.length :=
    word64_eq_ok.mpr ⟨by omega, by omega⟩
  unfold Image.write
  rw [if_neg (by rw [hwritable]; decide), hstop]
  exact if_neg (by omega)

/-- What is emitted for a writable image with the reserved room is installed in it, if the system
lets the image be made executable. -/
theorem install_of_emit {r : Request} {image : Image} {code : Code} {room : Nat}
    (hroom : reservedSize r = .ok room) (hwritable : image.executable = false)
    (hsize : room ≤ image.size) (hlt : image.size < 2 ^ 64)
    (h : emit r (some image.base) = .ok code) :
    ∃ t : Installed, t.size = code.bytes.length ∧ t.afterCall = code.afterCall ∧
      install r image =
        if image.lockable then .ok t else report (.outOfMemory .protectionFailed) := by
  have hle := length_le_reserved hroom h
  obtain ⟨filled, hfill, hbase, hfilled, hfresh, hlock⟩ : ∃ filled : Image,
      image.fill trapByte = .ok filled ∧ filled.base = image.base ∧ filled.size = image.size ∧
        filled.executable = false ∧ filled.lockable = image.lockable := by
    refine ⟨_, if_neg (by rw [hwritable]; decide), rfl, ?_, hwritable, rfl⟩
    exact Array.size_replicate
  have hwrite : filled.write 0 code.bytes = .ok (filled.poke 0 code.bytes) :=
    write_of_fits hfresh (by omega) (by omega)
  rw [← hbase] at h
  refine ⟨⟨{ filled.poke 0 code.bytes with executable := true }, code.bytes.length, code.afterCall,
    code.epilogue⟩, rfl, rfl, ?_⟩
  have hpoked : (filled.poke 0 code.bytes).makeExecutable =
      if image.lockable then .ok { filled.poke 0 code.bytes with executable := true }
      else report .protectionFailed := by
    rw [← hlock]
    exact if_neg (by rw [Image.poke, hfresh]; decide)
  unfold install ofMemory
  rw [hfill]
  dsimp only [Result.mapCause, bind, Except.bind]
  rw [h]
  dsimp only
  rw [hwrite]
  dsimp only
  rw [hpoked]
  cases image.lockable with
  | true => rfl
  | false => rfl

/-- The branches of the replacing programs lead to one aligned offset behind the wrapped call, each
exactly if it is less than two gigabytes ahead. Trampolines for one request are the same at all
addresses but for displacements and at most fifteen bytes of filler. -/
theorem emit_relocates (r : Request) :
    (∀ base code, emit r base = .ok code → (∃ target, Fixed r base code target) ∧
      (r.replace ≠ [] → r.flags.callWrapped = true) ∧
      code.bytes.length ≤ 512 + 187 * (r.entry.length + r.replace.length + r.exit.length)) ∧
    (∀ base base' code code', emit r base = .ok code → emit r base' = .ok code' →
      Relocated r base base' code code') ∧
    ∀ room, reservedSize r = .ok room →
      (∀ base code, emit r base = .ok code → code.bytes.length ≤ room) ∧
      ∀ (image : Image) (code : Code), image.executable = false → room ≤ image.size →
        image.size < 2 ^ 64 → emit r (some image.base) = .ok code →
        ∃ t : Installed, t.size = code.bytes.length ∧ t.afterCall = code.afterCall ∧
          install r image =
            if image.lockable then .ok t else report (.outOfMemory .protectionFailed) := by
  refine ⟨fun base code h => ?_, fun base base' code code' h h' => ?_, fun room hroom =>
    ⟨fun base code h => length_le_reserved hroom h,
      fun image code hwritable hsize hlt h => install_of_emit hroom hwritable hsize hlt h⟩⟩
  · obtain ⟨hcheck, p, hp⟩ := emit_eq_ok h
    obtain ⟨hargs, hwrapped⟩ := r.check_rules hcheck
    exact ⟨⟨p.target r, hp.fixed⟩, fun hreplace => hwrapped (by simpa using hreplace),
      hp.size_le hargs⟩
  · obtain ⟨_, p, hp⟩ := emit_eq_ok h
    obtain ⟨_, p', hp'⟩ := emit_eq_ok h'
    exact hp.relocated hp'

/-- A trampoline with three replacing programs in an image that is not aligned: the three branches
lead to offset 363, and it is five bytes shorter than the one that the room was reserved for. -/
theorem emit_relocates_busyRequest :
    ∃ code sized, emit busyRequest (some 0x400005) = .ok code ∧
      emit busyRequest none = .ok sized ∧ reservedSize busyRequest = .ok 474 ∧
      fieldsFrom branchField? 0 code.instrs = [(179, 178), (251, 106), (323, 34)] ∧
      code.bytes.length = 453 ∧ sized.bytes.length = 458 ∧
      (∃ target, Fixed busyRequest (some 0x400005) code target) ∧
      Relocated busyRequest (some 0x400005) none code sized ∧ code.bytes.length ≤ 474 := by
  have hcode : ((emit busyRequest (some 0x400005)).toOption.map fun code =>
      (fieldsFrom branchField? 0 code.instrs, code.bytes.length)) =
        some ([(179, 178), (251, 106), (323, 34)], 453) := by
    decide +kernel
  have hsized : ((emit busyRequest none).toOption.map fun code => code.bytes.length) =
      some 458 := by
    decide +kernel
  have hroom : reservedSize busyRequest = .ok 474 := by
    have hsome : (reservedSize busyRequest).toOption = some 474 := by decide +kernel
    exact toOption_eq_some.mp hsome
  obtain ⟨code, hemit, hshape⟩ := Option.map_eq_some_iff.mp hcode
  obtain ⟨sized, hemit', hlength'⟩ := Option.map_eq_some_iff.mp hsized
  obtain ⟨hbranches, hlength⟩ := Prod.mk.inj hshape
  have hok := toOption_eq_some.mp hemit
  have hok' := toOption_eq_some.mp hemit'
  obtain ⟨hfixed, hrelocated, hreserved⟩ := emit_relocates busyRequest
  exact ⟨code, sized, hok, hok', hroom, hbranches, hlength, hlength',
    (hfixed _ code hok).1, hrelocated _ _ code sized hok hok', (hreserved 474 hroom).1 _ code hok⟩

end NativeForge.Trampoline
