import NativeForge.Proofs.TrampolineRelocation

/-!
# Trampolines of more than two gigabytes

The calls of a trampoline are checked for their reach, the branches of its replacing programs are
not. So a trampoline is emitted at every length, as long as what it calls is near. With enough
replacing programs the branch behind the first of them does not reach the programs behind the
function: its displacement is cut to 32 bits and leads in front of the code, and a run in which the
first program answers ends there.
-/

namespace NativeForge.Trampoline

open X64 Target

/-- Code of so many bytes at an address reaches a target from everywhere. -/
structure Near (base : Address) (size : Nat) (target : Address) : Prop where
  /-- Both are in the lower half of the address space. -/
  low : base.toNat + size + 2 ^ 31 ≤ 2 ^ 63
  /-- The target is not too far back. -/
  back : base.toNat + size ≤ target.toNat + 2 ^ 31
  /-- The target is not too far ahead. -/
  ahead : target.toNat < base.toNat + 2 ^ 31

section Emission

variable {r : Request} {base : Address} {size : Nat} {p : Attached} {keep : Bool} (offset : Nat)

/-- A call of a near function is emitted. -/
theorem Near.callFrom_ok {target : Address} (h : Near base size target) (hle : offset + 5 ≤ size) :
    ∃ rel, callFrom (some base) offset target = .ok (.call rel) := by
  obtain ⟨hlow, hback, hahead⟩ := h
  have hsite : siteSize = 5 := rfl
  have hsigned := target.signed_eq
  rw [if_pos (by omega)] at hsigned
  have hlow' : base.toNat + (offset + siteSize) < 2 ^ 63 := by omega
  have hback' : (base.toNat + (offset + siteSize : Nat) : Int) ≤ target.signed + 2 ^ 31 := by omega
  obtain ⟨next, hnext, hrel, hfits⟩ := displacement_fits (ε := Error) hlow' hback' (by omega)
  exact ⟨_, bind_eq_ok.mpr ⟨next, hnext, bind_eq_ok.mpr ⟨_, hrel, if_pos hfits⟩⟩⟩

/-- The code for one program takes as much as its parts. -/
theorem codeSize_programForm (r : Request) (keep : Bool) (p : Attached) :
    codeSize (programForm r keep p) = codeSize (enterArgs r p) + 5 + codeSize testAnswer + 2 +
      codeSize (programCall r 0) + codeSize (keepReturn keep) + codeSize (exitArgs r p) + 5 := by
  have hskip : (skipBranch r keep).size = 2 := rfl
  unfold programForm
  simp only [codeSize_append, codeSize_cons, codeSize_nil, size_call, hskip]
  omega

/-- The code for one program is emitted if its hooks and the program are near. -/
theorem invoke_of_near (keep : Bool)
    (hnear : ∀ target ∈ r.programTargets p, Near base size target)
    (hle : offset + codeSize (programForm r keep p) ≤ size) :
    ∃ code, invoke r (some base) offset p keep = .ok code := by
  rw [codeSize_programForm] at hle
  have hprogram : codeSize (programCall r 0) =
      (Instr.lea .rdi .rbp (below r.slots.args)).size + 5 := rfl
  obtain ⟨enter, henter⟩ := (hnear (r.enterHook p) (by simp [Request.programTargets])).callFrom_ok
    (offset + codeSize (enterArgs r p)) (by omega)
  obtain ⟨run, hrun⟩ := (hnear p.entry (by simp [Request.programTargets])).callFrom_ok
    (offset + codeSize (enterArgs r p ++ .call enter :: testAnswer) + 2 +
      (Instr.lea .rdi .rbp (below r.slots.args)).size)
    (by rw [codeSize_append, codeSize_cons, size_call]; omega)
  have hbody : codeSize (programCall r run ++ keepReturn keep) =
      codeSize (programCall r 0) + codeSize (keepReturn keep) := codeSize_append _ _
  have hshort : fitsInt8 (codeSize (programCall r run ++ keepReturn keep)) = true := by
    have hlength : (programCall r run ++ keepReturn keep).length ≤ 3 := by
      cases keep <;> simp [programCall, keepReturn]
    have hbound := codeSize_le (programCall r run ++ keepReturn keep)
    exact fitsInt8_iff.mpr (by omega)
  obtain ⟨exit, hexit⟩ := (hnear (r.exitHook p) (by simp [Request.programTargets])).callFrom_ok
    (offset + codeSize (enterArgs r p ++ .call enter :: testAnswer ++
      [.jcc .equal (.byte (Int8.ofInt (codeSize (programCall r run ++ keepReturn keep))))] ++
        (programCall r run ++ keepReturn keep) ++ exitArgs r p))
    (by
      rw [codeSize_append, codeSize_append, hbody]
      simp only [codeSize_append, codeSize_cons, codeSize_nil, size_call, size_jcc_byte]
      omega)
  rw [invoke_eq]
  exact ⟨_, bind_eq_ok.mpr ⟨_, henter, bind_eq_ok.mpr ⟨_, hrun,
    (if_pos hshort).trans (bind_eq_ok.mpr ⟨_, hexit, rfl⟩)⟩⟩⟩

/-- The code for near programs is emitted. -/
theorem invokeAll_of_near (keep : Bool) {programs : List Attached}
    (hnear : ∀ target ∈ programs.flatMap r.programTargets, Near base size target)
    (hle : offset + codeSize (programs.flatMap (programForm r keep)) ≤ size) :
    ∃ code, invokeAll r (some base) keep offset programs = .ok code := by
  induction programs generalizing offset with
  | nil => exact ⟨[], rfl⟩
  | cons p rest ih =>
    rw [List.flatMap_cons, codeSize_append] at hle
    rw [List.flatMap_cons] at hnear
    obtain ⟨hfirst, hrest⟩ := List.forall_mem_append.mp hnear
    obtain ⟨code, hcode⟩ := invoke_of_near offset keep hfirst (by omega)
    have hsize := (invoke_renders hcode).codeSize_eq
    obtain ⟨tail, htail⟩ := ih (offset + codeSize code) hrest (by omega)
    exact ⟨_, bind_eq_ok.mpr ⟨code, hcode, bind_eq_ok.mpr ⟨tail, htail, rfl⟩⟩⟩

/-- The code for near replacing programs is emitted. -/
theorem vetoes_of_near {programs : List Attached}
    (hnear : ∀ target ∈ programs.flatMap r.programTargets, Near base size target)
    (hle : offset + codeSize (programs.flatMap (vetoForm r)) ≤ size) :
    ∃ vs, vetoes r (some base) offset programs = .ok vs := by
  induction programs generalizing offset with
  | nil => exact ⟨[], rfl⟩
  | cons p rest ih =>
    rw [List.flatMap_cons, codeSize_append, vetoForm, codeSize_append, codeSize_cons,
      codeSize_cons, codeSize_nil] at hle
    rw [List.flatMap_cons] at hnear
    obtain ⟨hfirst, hrest⟩ := List.forall_mem_append.mp hnear
    obtain ⟨code, hcode⟩ := invoke_of_near offset true hfirst (by omega)
    have hsize := (invoke_renders hcode).codeSize_eq
    have hbranch : (Instr.jcc .notEqual (.dword 0)).size = vetoSize := rfl
    have htest : codeSize (code ++ [testReturn]) = codeSize code + testReturn.size := by
      rw [codeSize_append, codeSize_cons, codeSize_nil, Nat.add_zero]
    obtain ⟨tail, htail⟩ := ih (offset + codeSize (code ++ [testReturn]) + vetoSize) hrest
      (by omega)
    exact ⟨_, bind_eq_ok.mpr ⟨code, hcode, bind_eq_ok.mpr ⟨tail, htail, rfl⟩⟩⟩

/-- A near outer hook is called, if it is needed. -/
theorem outer_of_near {hook : Address}
    (hnear : ∀ target ∈ r.onceTargets hook, Near base size target)
    (hle : offset + codeSize (outerForm r) ≤ size) :
    ∃ code, (if r.flags.callWrapped then outerHook r (some base) offset hook else pure []) =
      .ok code := by
  unfold Request.onceTargets at hnear
  unfold outerForm at hle
  split at hle
  · rename_i hcall
    rw [if_pos hcall] at hnear ⊢
    obtain ⟨rel, hrel⟩ := (hnear hook (by simp)).callFrom_ok
      (offset + (loadImm64 .rdi r.handle).size) hle
    exact ⟨_, bind_eq_ok.mpr ⟨_, hrel, rfl⟩⟩
  · rename_i hcall
    rw [if_neg hcall]
    exact ⟨[], rfl⟩

/-- A near wrapped function is called, if it is needed. -/
theorem wraps_of_near {wrapped : Address}
    (hnear : ∀ target ∈ r.onceTargets wrapped, Near base size target)
    (hle : offset + codeSize (wrapForm r) ≤ size) :
    ∃ code, (if r.flags.callWrapped then wrappedCall r (some base) offset wrapped else pure []) =
      .ok code := by
  unfold Request.onceTargets at hnear
  unfold wrapForm at hle
  split at hle
  · rename_i hcall
    rw [codeSize_append, codeSize_cons, size_call] at hle
    rw [if_pos hcall] at hnear ⊢
    obtain ⟨rel, hrel⟩ := (hnear wrapped (by simp)).callFrom_ok
      (offset + codeSize (restoreArgs r)) (by omega)
    exact ⟨_, bind_eq_ok.mpr ⟨_, hrel, rfl⟩⟩
  · rename_i hcall
    rw [if_neg hcall]
    exact ⟨[], rfl⟩

/-- The address behind the call at the start of a function, if that has to be skipped. -/
theorem Request.wrapped_ok (hroom : r.flags.skipFrame = true → r.wrapped.toNat + 5 < 2 ^ 64) :
    (if r.flags.skipFrame then r.wrapped.plus siteSize else pure r.wrapped) =
      (.ok r.wrappedTarget : Result Error Address) := by
  unfold Request.wrappedTarget
  split
  · rename_i hskip
    have hfive : (5 : UInt64).toNat = 5 := rfl
    have hlt := hroom hskip
    refine plus_eq_ok.mpr ?_
    rw [UInt64.toNat_add, hfive, Nat.mod_eq_of_lt hlt]
    rfl
  · rfl

/-- There is filler up to every multiple of sixteen. -/
theorem gap_ok (r : Request) (hle : base.toNat + offset + 15 < 2 ^ 64) :
    ∃ gap, (if r.replace.isEmpty then pure 0 else branchGap (some base) offset) =
      (.ok gap : Result Error Nat) := by
  split
  · exact ⟨0, rfl⟩
  · refine ⟨_, bind_eq_ok.mpr ⟨_, word64_eq_ok.mpr ⟨?_, rfl⟩,
      bind_eq_ok.mpr ⟨_, word64_eq_ok.mpr ⟨?_, rfl⟩, rfl⟩⟩⟩
    · rw [Option.getD_some]
      omega
    · rw [Option.getD_some]
      unfold roundUp
      omega

/-- A trampoline is emitted at every length, if all that it calls is near. -/
theorem emit_of_near (size : Nat) (hcheck : r.check = .ok ())
    (hroom : r.flags.skipFrame = true → r.wrapped.toNat + 5 < 2 ^ 64)
    (hnear : ∀ target ∈ r.targets, Near base size target) (hlow : base.toNat + size < 2 ^ 64)
    (hle : codeSize (frontForm r) + 15 + codeSize (backForm r) ≤ size) :
    ∃ code, emit r (some base) = .ok code := by
  simp only [Request.targets, List.forall_mem_append] at hnear
  obtain ⟨hbegin, hentry, hreplace, hwrapped, hexit, hfinish⟩ := hnear
  simp only [frontForm, backForm, codeSize_append] at hle
  obtain ⟨begins, hbegins⟩ := outer_of_near (codeSize (opening r)) hbegin (by omega)
  have hsize1 := (outer_renders hbegins).codeSize_eq
  obtain ⟨entries, hentries⟩ := invokeAll_of_near (codeSize (opening r ++ begins))
    r.flags.returnEntryValue hentry (by rw [codeSize_append]; omega)
  have hsize2 := (invokeAll_renders hentries).codeSize_eq
  obtain ⟨vs, hvetoes⟩ := vetoes_of_near
    (codeSize (opening r ++ begins ++ entries ++ clearing r)) hreplace
    (by simp only [codeSize_append]; omega)
  have hsize3 := (vetoes_renders hvetoes 0).codeSize_eq
  rw [codeSize_vetoes] at hsize3
  obtain ⟨wraps, hwraps⟩ := wraps_of_near
    (codeSize (opening r ++ begins ++ entries ++ clearing r) + vetoesSize vs) hwrapped
    (by simp only [codeSize_append]; omega)
  have hsize4 := (wraps_renders hwraps).codeSize_eq
  have hend : base.toNat + (codeSize (opening r ++ begins ++ entries ++ clearing r) +
      vetoesSize vs + codeSize (wraps ++ site r)) + 15 < 2 ^ 64 := by
    simp only [codeSize_append]
    omega
  obtain ⟨gap, hgap⟩ := gap_ok _ r hend
  have hgap_lt := gap_lt hgap
  obtain ⟨exits, hexits⟩ := invokeAll_of_near
    (codeSize (opening r ++ begins ++ entries ++ clearing r) + vetoesSize vs +
      codeSize (wraps ++ site r) + gap) false hexit (by simp only [codeSize_append]; omega)
  have hsize5 := (invokeAll_renders hexits).codeSize_eq
  obtain ⟨finishes, hfinishes⟩ := outer_of_near
    (codeSize (opening r ++ begins ++ entries ++ clearing r) + vetoesSize vs +
      codeSize (wraps ++ site r) + gap + codeSize (exits ++ restoring r)) hfinish
    (by simp only [codeSize_append]; omega)
  exact ⟨_, bind_eq_ok.mpr ⟨_, hcheck, ite_bind_eq_ok.mpr ⟨_, r.wrapped_ok hroom,
    ite_bind_eq_ok.mpr ⟨_, hbegins, bind_eq_ok.mpr ⟨_, hentries, bind_eq_ok.mpr ⟨_, hvetoes,
      ite_bind_eq_ok.mpr ⟨_, hwraps, ite_bind_eq_ok.mpr ⟨_, hgap, bind_eq_ok.mpr ⟨_, hexits,
        ite_bind_eq_ok.mpr ⟨_, hfinishes, rfl⟩⟩⟩⟩⟩⟩⟩⟩⟩⟩

end Emission

section FirstBranch

variable {r : Request} {base : Option Address} {code : Code} {parts : Parts} {p : Attached}
  {rest : List Attached}

/-- The displacement to a target two gigabytes ahead or more leads in front of the code, if the
target is in its first four gigabytes. -/
theorem branchTo_back {target branch : Nat} (hfar : branch + 6 + 2 ^ 31 ≤ target)
    (hlt : target < 2 ^ 32) : (branch : Int) + 6 + (branchTo target branch).toInt < 0 := by
  obtain ⟨hmod, _⟩ := branchTo_leads (show branch + 6 ≤ target by omega)
  have hlow := (branchTo target branch).le_toInt
  have hhigh := (branchTo target branch).toInt_lt
  omega

/-- From the branch behind the first replacing program to its target stand the other replacing
programs, the wrapped call and the filler. -/
theorem Emitted.first_branch (h : Emitted r base code parts) (hreplace : r.replace = p :: rest) :
    ∃ run tail, invoke r base (parts.vetoesAt r) p true = .ok run ∧
      parts.vetoes = ⟨run ++ [testReturn], parts.vetoesAt r + codeSize run + 5⟩ :: tail ∧
      parts.target r = parts.vetoesAt r + codeSize run + 5 + 6 +
        codeSize (rest.flatMap (vetoForm r)) + codeSize (wrapForm r ++ site r) + parts.gap := by
  have hvetoes := h.vetoes_eq
  rw [hreplace] at hvetoes
  obtain ⟨run, tail, hrun, htail, heq⟩ := vetoes_cons_eq_ok hvetoes
  have hrest := (vetoes_renders htail 0).codeSize_eq
  have hwraps := (wraps_renders h.wraps_eq).codeSize_eq
  have hfive : testReturn.size = 5 := rfl
  have hsix : vetoSize = 6 := rfl
  rw [codeSize_vetoes] at hrest
  refine ⟨run, tail, hrun, heq, ?_⟩
  rw [Parts.target, Parts.gapAt, Parts.wrapsAt, heq, vetoesSize_cons, codeSize_append, ← hrest,
    ← hwraps]
  omega

/-- With more than two gigabytes between them, the branch behind the first replacing program leads
in front of the code instead of to the programs behind the function. -/
theorem Emitted.first_branch_back (h : Emitted r base code parts) (hreplace : r.replace = p :: rest)
    (hfar : 2 ^ 31 ≤ codeSize (rest.flatMap (vetoForm r)) + codeSize (wrapForm r ++ site r))
    (hlt : code.bytes.length < 2 ^ 32) {branch : Nat} {run : List Instr} {tail : List Veto}
    (hfirst : parts.vetoes = ⟨run, branch⟩ :: tail) :
    (branch : Int) + 6 + (branchTo (parts.target r) branch).toInt < 0 := by
  obtain ⟨_, _, _, hvetoes, htarget⟩ := h.first_branch hreplace
  obtain ⟨⟨rfl, rfl⟩, rfl⟩ : (_ ∧ branch = _) ∧ tail = _ := by
    simpa using hfirst.symm.trans hvetoes
  have hlength := h.length_bytes
  have hgapAt := h.gapAt_eq
  refine branchTo_back (by omega) ?_
  rw [Parts.target]
  omega

end FirstBranch

/-- A trampoline with so many replacing programs has a branch that leads in front of the code. -/
theorem exists_branch_back {r : Request} {base : Option Address} {code : Code} {p : Attached}
    {rest : List Attached} (h : emit r base = .ok code) (hreplace : r.replace = p :: rest)
    (hfar : 2 ^ 31 ≤ codeSize (rest.flatMap (vetoForm r)) + codeSize (wrapForm r ++ site r))
    (hlt : code.bytes.length < 2 ^ 32) :
    ∃ branch ∈ fieldsFrom branchField? 0 code.instrs,
      (branch.1 : Int) + 6 + branch.2.toInt < 0 := by
  obtain ⟨_, parts, hparts⟩ := emit_eq_ok h
  obtain ⟨run, tail, _, hvetoes, _⟩ := hparts.first_branch hreplace
  refine ⟨(parts.vetoesAt r + codeSize run + 5, branchTo (parts.target r) _), ?_,
    hparts.first_branch_back hreplace hfar hlt hvetoes⟩
  rw [hparts.renders.branches_eq, hvetoes]
  exact List.mem_cons_self ..

section Running

variable {x : Linked} {base : Address} {r : Request} {entry s : State} {p : Attached}

/-- A program answers if no function returns zero. -/
theorem Invoked.answers {calls : List MadeCall} {result : Option (BitVec 64)}
    (h : Invoked r entry p calls result) (hvalue : ∀ c ∈ calls, c.value ≠ 0) :
    ∃ value, result = some value ∧ value ≠ 0 := by
  cases h with
  | refused henter hzero hexit => exact absurd hzero (hvalue _ (by simp))
  | ran henter henters hrun hexit => exact ⟨_, rfl, hvalue _ (by simp)⟩

/-- If no function returns zero, the run comes to the branch behind the first replacing program and
takes it. -/
theorem Emitted.takes_first_branch {code : Code} {parts : Parts} {rest : List Attached}
    (h : Emitted r (some base) code parts) (hcheck : r.check = .ok ())
    (hx : Setting x base r entry) (hbytes : x.code = code.bytes) (hready : Ready r entry)
    (hreplace : r.replace = p :: rest)
    (hanswer : ∀ history target s, (x.callees history target s).regs .rax ≠ 0) :
    ∃ branch run tail calls t, parts.vetoes = ⟨run, branch⟩ :: tail ∧
      x.Makes [] 0 entry branch t calls ∧
      fetch x.code branch =
        some (.jcc .notEqual (.dword (branchTo (parts.target r) branch)), branch + 6) ∧
      (Instr.jcc .notEqual (.dword (branchTo (parts.target r) branch))).exec t =
        some (t, .jump (branchTo (parts.target r) branch).toInt) := by
  obtain ⟨hargs, hrule⟩ := r.check_rules hcheck
  have hcall : r.flags.callWrapped = true := hrule (by rw [hreplace]; rfl)
  have hk : r.slots.keepsReturn = true := by rw [r.keepsReturn_eq, hcall, Bool.true_or]
  have hclear : clearing r = clearReturn := by
    rw [clearing, if_neg (by rw [hreplace]; exact Bool.false_ne_true)]
  obtain ⟨run, tail, hrun, hvetoes, _⟩ := h.first_branch hreplace
  have hstart := h.hasCode_start
  have hbody := h.hasCode_body
  have hfirst := h.hasCode_vetoes.left
  rw [← hbytes] at hstart hbody hfirst
  rw [hvetoes, List.flatMap_cons] at hfirst
  simp only [Veto.instrs, List.append_assoc] at hfirst
  -- the opening, the outer hook, the programs before the function and the cleared return value
  obtain ⟨s, hexec, hstands, _, _, _⟩ := exec_opening hargs hready.below hready.above
  have hopening : x.Makes [] 0 entry _ s [] := .execAll hstart.left (encodable_opening r) hexec
  rw [Nat.zero_add] at hopening
  obtain ⟨s1, begins, hgo1, _, _, _⟩ := hx.goes_outer [] hstands h.begins_eq hbody.left
  obtain ⟨s2, entries, results, hgo2, _, _⟩ :=
    hx.goes_invokeAll begins hgo1.stands (fun _ => hk) h.entries_eq hbody.right.left
  obtain ⟨s3, hgo3, _⟩ := hx.goes_clear (begins ++ entries) hgo2.stands hk
    (hclear ▸ hbody.right.right.left)
  rw [← hclear] at hgo3
  -- the first replacing program and the test of its answer
  obtain ⟨s4, calls, result, hgo4, hcalls, hkept⟩ :=
    hx.goes_invoke (begins ++ entries) hgo3.stands (fun _ => hk) hrun hfirst.left
  obtain ⟨t, f, hgo5, _, hflags, hholds⟩ :=
    hx.goes_testReturn (begins ++ entries ++ calls) hgo4.stands hfirst.right
  obtain ⟨value, rfl, hvalue⟩ := hcalls.answers fun c hc => by
    obtain ⟨history, hafter⟩ := hgo4.makes.madeBy hc
    rw [MadeCall.value, hafter]
    exact hanswer _ _ _
  have hgo := hgo1.trans (hgo2.trans ((hgo3.after_plain hgo4).then_plain hgo5))
  refine ⟨_, _, tail, _, t, hvetoes, hopening.trans hgo.makes,
    hfirst.right.tail.fetch_eq trivial, ?_⟩
  rw [hkept hk, if_pos rfl, Option.getD_some, decide_eq_true hvalue] at hholds
  rw [Instr.exec, hflags, Option.bind_some, if_pos hholds]
  rfl

/-- A trampoline whose first replacing program is more than two gigabytes in front of the programs
behind the function does not perform its calls, if no function returns zero. -/
theorem not_performs_of_far {code : Code} {rest : List Attached} (h : emit r (some base) = .ok code)
    (hreplace : r.replace = p :: rest)
    (hfar : 2 ^ 31 ≤ codeSize (rest.flatMap (vetoForm r)) + codeSize (wrapForm r ++ site r))
    (hlt : code.bytes.length < 2 ^ 32) (hready : Ready r entry) {callees : Callees}
    (hnormal : Normal r.slots (entry.regs .rsp) callees)
    (hanswer : ∀ history target s, (callees history target s).regs .rax ≠ 0) :
    ¬Performs r ⟨code.bytes, base.toBitVec, callees⟩ entry := by
  obtain ⟨hcheck, parts, hparts⟩ := emit_eq_ok h
  have hx : Setting ⟨code.bytes, base.toBitVec, callees⟩ base r entry :=
    ⟨rfl, Request.slots_size_le (r.check_args hcheck), hnormal⟩
  obtain ⟨branch, run, tail, calls, t, hvetoes, ⟨count, hmakes⟩, hfetch, hexec⟩ :=
    hparts.takes_first_branch hcheck hx rfl hready hreplace hanswer
  have hback := hparts.first_branch_back hreplace hfar hlt hvetoes
  -- the run ends at the branch, and not at a return
  have hstuck : Linked.step ⟨code.bytes, base.toBitVec, callees⟩ ⟨branch, t, [] ++ calls⟩ = none :=
    Linked.step_eq_none_of_jump hfetch hexec (by omega)
  rintro ⟨_, _, _, offset, u, ⟨count', hmakes'⟩, hret, _⟩
  have hend := Linked.run_unique hmakes hstuck hmakes' (Linked.step_eq_none_of_ret hret)
  obtain rfl : branch = offset := congrArg Moment.offset hend
  obtain ⟨hinstr, _⟩ := Prod.mk.inj (Option.some.inj (hfetch.symm.trans hret))
  cases hinstr

end Running

/-- A replacing program. -/
def vetoing : Attached := ⟨0x22, 0x140000000, 0xC2, false⟩

/-- A request with so many replacing programs, where everything that is called is at one address. -/
def vetoingRequest (count : Nat) : Request where
  args := []
  flags := { callWrapped := true }
  replace := List.replicate count vetoing
  hooks := ⟨0x140000000, 0x140000000, 0x140000000, 0x140000000, 0x140000000, 0x140000000⟩
  wrapped := 0x140000000
  handle := 0xFF

section Vetoing

variable (count : Nat)

/-- The request passes the check. -/
theorem vetoingRequest_check : (vetoingRequest count).check = .ok () := by
  simp [Request.check, vetoingRequest]

/-- Everything that the trampoline calls is at one address. -/
theorem vetoingRequest_targets :
    ∀ target ∈ (vetoingRequest count).targets, target = 0x140000000 := by
  intro target htarget
  simp [Request.targets, Request.onceTargets, Request.programTargets, Request.enterHook,
    Request.exitHook, Request.wrappedTarget, vetoingRequest, vetoing] at htarget
  rcases htarget with rfl | ⟨_, rfl⟩ | rfl <;> rfl

/-- The same code as often as the list is long. -/
theorem codeSize_flatMap_replicate {α : Type} (form : α → List Instr) (a : α) :
    codeSize ((List.replicate count a).flatMap form) = count * codeSize (form a) := by
  induction count with
  | zero => simp [codeSize_nil]
  | succ count ih =>
    rw [List.replicate_succ, List.flatMap_cons, codeSize_append, ih, Nat.succ_mul, Nat.add_comm]

/-- The code for one of the replacing programs. -/
theorem codeSize_vetoForm_vetoing : codeSize (vetoForm (vetoingRequest count) vetoing) = 72 := by
  have hslots : (vetoingRequest count).slots = (vetoingRequest 0).slots := rfl
  simp only [vetoForm, programForm, enterArgs, skipBranch, programCall, exitArgs, hslots]
  decide +kernel

/-- The wrapped call. -/
theorem codeSize_wrapForm_vetoing :
    codeSize (wrapForm (vetoingRequest count) ++ site (vetoingRequest count)) = 14 := rfl

/-- The code up to the filler. -/
theorem codeSize_frontForm_vetoing :
    codeSize (frontForm (vetoingRequest (count + 1))) = 117 + 72 * count := by
  have hopening : opening (vetoingRequest (count + 1)) = opening (vetoingRequest 0) := rfl
  have houter : outerForm (vetoingRequest (count + 1)) = outerForm (vetoingRequest 0) := rfl
  have hclearing : clearing (vetoingRequest (count + 1)) = clearReturn := rfl
  have hbefore : codeSize (opening (vetoingRequest 0)) + codeSize (outerForm (vetoingRequest 0)) +
    codeSize clearReturn = 31 := by decide +kernel
  have hreplace : codeSize ((vetoingRequest (count + 1)).replace.flatMap
      (vetoForm (vetoingRequest (count + 1)))) = (count + 1) * 72 := by
    rw [← codeSize_vetoForm_vetoing (count + 1)]
    exact codeSize_flatMap_replicate _ _ _
  have hwraps := codeSize_wrapForm_vetoing (count + 1)
  rw [frontForm, hopening, houter, hclearing, codeSize_append, codeSize_append, codeSize_append,
    codeSize_append, codeSize_append, hreplace, hwraps]
  change _ + (_ + (0 + _)) = _
  omega

/-- The code behind the filler. -/
theorem codeSize_backForm_vetoing : codeSize (backForm (vetoingRequest count)) = 17 := by
  have hback : backForm (vetoingRequest count) = backForm (vetoingRequest 0) := rfl
  rw [hback]
  decide +kernel

/-- The trampoline is emitted. -/
theorem exists_emit_vetoing (hle : count ≤ 40000000) :
    ∃ code, emit (vetoingRequest (count + 1)) (some 0x100000000) = .ok code ∧
      code.bytes.length < 2 ^ 32 := by
  have hbase : (0x100000000 : Address).toNat = 2 ^ 32 := rfl
  have htarget : (0x140000000 : Address).toNat = 2 ^ 32 + 2 ^ 30 := rfl
  have hfront := codeSize_frontForm_vetoing count
  have hback := codeSize_backForm_vetoing (count + 1)
  obtain ⟨code, hcode⟩ : ∃ code,
      emit (vetoingRequest (count + 1)) (some 0x100000000) = .ok code := by
    refine emit_of_near (72 * count + 149) (vetoingRequest_check _)
      (fun hskip => absurd hskip Bool.false_ne_true) (fun target hmem => ?_) (by omega) (by omega)
    rw [vetoingRequest_targets _ target hmem]
    exact ⟨by omega, by omega, by omega⟩
  obtain ⟨_, parts, hparts⟩ := emit_eq_ok hcode
  have hlength := hparts.length_bytes
  have hgap := gap_lt hparts.gap_eq
  exact ⟨code, hcode, by omega⟩

/-- The branch behind the first of many replacing programs has to reach over more than two
gigabytes. -/
theorem vetoing_far {count : Nat} (h : 29826162 ≤ count) :
    2 ^ 31 ≤ codeSize ((List.replicate count vetoing).flatMap
        (vetoForm (vetoingRequest (count + 1)))) +
      codeSize (wrapForm (vetoingRequest (count + 1)) ++ site (vetoingRequest (count + 1))) := by
  rw [codeSize_flatMap_replicate, codeSize_vetoForm_vetoing, codeSize_wrapForm_vetoing]
  omega

/-- With many replacing programs, a trampoline is emitted that does not perform its calls. -/
theorem vetoing_not_performs (count : Nat) (hlow : 29826162 ≤ count) (hhigh : count ≤ 40000000) :
    ∃ code, emit (vetoingRequest (count + 1)) (some 0x100000000) = .ok code ∧
      Ready (vetoingRequest (count + 1)) wideCaller ∧
      Normal (vetoingRequest (count + 1)).slots (wideCaller.regs .rsp) (answering fun _ => 1) ∧
      ¬Performs (vetoingRequest (count + 1)) ⟨code.bytes, 0x100000000, answering fun _ => 1⟩
        wideCaller := by
  obtain ⟨code, hcode, hlt⟩ := exists_emit_vetoing count hhigh
  have hready : Ready (vetoingRequest (count + 1)) wideCaller :=
    ⟨fun _ _ => rfl, fun _ _ _ => rfl⟩
  have hnormal := normal_answering (vetoingRequest (count + 1)).slots (wideCaller.regs .rsp)
    fun _ => 1
  have hone : (1 : BitVec 64) ≠ 0 := by decide
  exact ⟨code, hcode, hready, hnormal, not_performs_of_far hcode rfl (vetoing_far hlow) hlt hready
    hnormal fun _ _ _ => hone⟩

/-- Thirty million replacing programs: the calls are not performed if the first of them answers. -/
theorem thirtyMillion_not_performs :
    ∃ code, emit (vetoingRequest 30000000) (some 0x100000000) = .ok code ∧
      Ready (vetoingRequest 30000000) wideCaller ∧
      Normal (vetoingRequest 30000000).slots (wideCaller.regs .rsp) (answering fun _ => 1) ∧
      ¬Performs (vetoingRequest 30000000) ⟨code.bytes, 0x100000000, answering fun _ => 1⟩
        wideCaller :=
  vetoing_not_performs 29999999 (by decide) (by decide)

/-- With many replacing programs, a trampoline is emitted with a branch that leads in front of the
code. -/
theorem vetoing_branch_back (count : Nat) (hlow : 29826162 ≤ count) (hhigh : count ≤ 40000000) :
    ∃ code, emit (vetoingRequest (count + 1)) (some 0x100000000) = .ok code ∧
      ∃ branch ∈ fieldsFrom branchField? 0 code.instrs,
        (branch.1 : Int) + 6 + branch.2.toInt < 0 := by
  obtain ⟨code, hcode, hlt⟩ := exists_emit_vetoing count hhigh
  exact ⟨code, hcode, exists_branch_back hcode rfl (vetoing_far hlow) hlt⟩

/-- Thirty million replacing programs: a branch leads in front of the code. -/
theorem thirtyMillion_branch_back :
    ∃ code, emit (vetoingRequest 30000000) (some 0x100000000) = .ok code ∧
      ∃ branch ∈ fieldsFrom branchField? 0 code.instrs,
        (branch.1 : Int) + 6 + branch.2.toInt < 0 :=
  vetoing_branch_back 29999999 (by decide) (by decide)

end Vetoing

end NativeForge.Trampoline
