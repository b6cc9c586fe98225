import NativeForge.Proofs.BranchForms
import NativeForge.Proofs.FragmentSizes
import NativeForge.Proofs.TrampolineCalls

/-!
# Runs of trampolines

The code of a trampoline consists of parts that stand one behind the other, each of them emitted for
the offset at which it stands. A run goes through the parts in order, or from a replacing program
straight to the programs behind the function. Every run makes the calls that `Performed` lists and
ends at the return.
-/

namespace NativeForge.Trampoline

open X64 Target

/-- Clear the return value, if there are replacing programs. -/
def clearing (r : Request) : List Instr := if r.replace.isEmpty then [] else clearReturn

/-- The site behind the wrapped call that can be patched. -/
def site (r : Request) : List Instr := if r.flags.callWrapped then [.nop 4] else []

/-- Reload the argument registers, if it is asked for. -/
def restoring (r : Request) : List Instr := if r.flags.restoreRegisters then restoreArgs r else []

/-- The address at which the wrapped function is called: behind the call at its start, if that has
to be skipped. -/
def Request.wrappedTarget (r : Request) : Address :=
  if r.flags.skipFrame then r.wrapped + 5 else r.wrapped

/-- The replacing programs and their branches have the size that is reserved for them. -/
theorem codeSize_vetoes (vs : List Veto) (target : Nat) :
    codeSize (vs.flatMap (Veto.instrs · target)) = vetoesSize vs := by
  induction vs with
  | nil => rfl
  | cons v rest ih =>
    rw [List.flatMap_cons, codeSize_append, ih, Veto.instrs, codeSize_append]
    rfl

/-- The parts of a trampoline that depend on where it is. -/
structure Parts where
  /-- Address at which the wrapped function is called. -/
  wrapped : Address
  /-- The outer hook before everything. -/
  begins : List Instr
  /-- The programs before the function. -/
  entries : List Instr
  /-- The replacing programs. -/
  vetoes : List Veto
  /-- The wrapped call. -/
  wraps : List Instr
  /-- Bytes of filler. -/
  gap : Nat
  /-- The programs behind the function. -/
  exits : List Instr
  /-- The outer hook behind everything. -/
  finishes : List Instr

namespace Parts

variable (p : Parts) (r : Request)

/-- Offset of the programs before the function. -/
def entriesAt : Nat := codeSize (opening r) + codeSize p.begins

/-- Offset of the replacing programs. -/
def vetoesAt : Nat := p.entriesAt r + codeSize p.entries + codeSize (clearing r)

/-- Offset of the wrapped call. -/
def wrapsAt : Nat := p.vetoesAt r + vetoesSize p.vetoes

/-- Offset of the filler. -/
def gapAt : Nat := p.wrapsAt r + codeSize p.wraps + codeSize (site r)

/-- Offset of the programs behind the function, where the branches of the replacing programs
lead. -/
def target : Nat := p.gapAt r + p.gap

/-- Offset of the outer hook behind everything. -/
def finishesAt : Nat := p.target r + codeSize p.exits + codeSize (restoring r)

/-- The parts between the opening and the programs behind the function, and what follows them. -/
def before (back : List Instr) : List Instr :=
  p.begins ++ (p.entries ++ (clearing r ++ (p.vetoes.flatMap (Veto.instrs · (p.target r)) ++
    (p.wraps ++ (site r ++ (nops p.gap ++ back))))))

/-- The parts from the programs behind the function on, and what follows them. -/
def behind (back : List Instr) : List Instr :=
  p.exits ++ (restoring r ++ (p.finishes ++ back))

/-- The parts before the programs behind the function end where these start. -/
theorem codeSize_front : codeSize (opening r) + codeSize p.begins + codeSize p.entries +
    codeSize (clearing r) + codeSize (p.vetoes.flatMap (Veto.instrs · (p.target r))) +
    codeSize p.wraps + codeSize (site r) + codeSize (nops p.gap) = p.target r := by
  rw [codeSize_vetoes, codeSize_nops]
  rfl

/-- Behind the filler stand the programs behind the function. -/
theorem hasCode_target {code : List UInt8} {back : List Instr}
    (h : HasCode code (codeSize (opening r)) (p.before r back)) :
    HasCode code (p.target r) back := by
  have hback := h.right.right.right.right.right.right.right
  rw [p.codeSize_front r] at hback
  exact hback

/-- The branches of the replacing programs lead forward. -/
theorem wrapsAt_le : p.wrapsAt r ≤ p.target r := by
  unfold target gapAt
  omega

end Parts

/-- The code of a trampoline has these parts, each emitted for its own offset. -/
structure Emitted (r : Request) (base : Option Address) (code : Code) (p : Parts) : Prop where
  /-- The parts in a row. -/
  instrs_eq : code.instrs = opening r ++ p.before r (p.behind r (closing r))
  /-- The wrapped function is called behind the call at its start, if that has to be skipped. -/
  wrapped_eq : (if r.flags.skipFrame then r.wrapped.plus siteSize else pure r.wrapped) =
    (.ok p.wrapped : Result Error Address)
  /-- The outer hook before everything. -/
  begins_eq : (if r.flags.callWrapped then outerHook r base (codeSize (opening r)) r.hooks.begin
    else pure []) = .ok p.begins
  /-- The programs before the function. -/
  entries_eq : invokeAll r base r.flags.returnEntryValue (p.entriesAt r) r.entry = .ok p.entries
  /-- The replacing programs. -/
  vetoes_eq : Trampoline.vetoes r base (p.vetoesAt r) r.replace = .ok p.vetoes
  /-- The wrapped call. -/
  wraps_eq : (if r.flags.callWrapped then wrappedCall r base (p.wrapsAt r) p.wrapped
    else pure []) = .ok p.wraps
  /-- The filler. -/
  gap_eq : (if r.replace.isEmpty then pure 0 else branchGap base (p.gapAt r)) =
    (.ok p.gap : Result Error Nat)
  /-- The programs behind the function. -/
  exits_eq : invokeAll r base false (p.target r) r.exit = .ok p.exits
  /-- The outer hook behind everything. -/
  finishes_eq : (if r.flags.callWrapped then outerHook r base (p.finishesAt r) r.hooks.finish
    else pure []) = .ok p.finishes
  /-- The site that can be patched is behind the wrapped call. -/
  afterCall_eq : code.afterCall =
    if r.flags.callWrapped then some (p.wrapsAt r + codeSize p.wraps) else none

/-- The wrapped function is called at that address. -/
theorem Emitted.wrapped_target {r : Request} {base : Option Address} {code : Code} {p : Parts}
    (h : Emitted r base code p) : p.wrapped = r.wrappedTarget := by
  have hwrapped := h.wrapped_eq
  unfold Request.wrappedTarget
  split at hwrapped
  · rename_i hskip
    have hsum := plus_eq_ok.mp hwrapped
    have hlt := p.wrapped.toNat_lt
    have hsize : siteSize = 5 := rfl
    have hfive : (5 : UInt64).toNat = 5 := rfl
    rw [if_pos hskip]
    apply UInt64.toNat_inj.mp
    rw [UInt64.toNat_add, hfive]
    omega
  · rename_i hskip
    rw [if_neg hskip]
    exact (pure_eq_ok.mp hwrapped).symm

/-- Without replacing programs, the wrapped call follows the programs before the function. -/
theorem Emitted.wrapsAt_eq {r : Request} {base : Option Address} {code : Code} {p : Parts}
    (h : Emitted r base code p) (hreplace : r.replace = []) :
    p.wrapsAt r = p.entriesAt r + codeSize p.entries := by
  have hvetoes := h.vetoes_eq
  rw [hreplace] at hvetoes
  have hnone : p.vetoes = [] := (Except.ok.inj hvetoes).symm
  rw [Parts.wrapsAt, Parts.vetoesAt, clearing, if_pos (by rw [hreplace]; rfl), hnone]
  rfl

/-- A result that is used after a choice comes from the chosen side. -/
theorem ite_bind_eq_ok {ε α β : Type} {c : Prop} [Decidable c] {x y : Result ε α}
    {f : α → Result ε β} {b : β} :
    (if c then x >>= f else y >>= f) = .ok b ↔ ∃ a, (if c then x else y) = .ok a ∧ f a = .ok b := by
  split <;> exact bind_eq_ok

/-- Every emitted trampoline has these parts. -/
theorem emitChecked_eq_ok {r : Request} {base : Option Address} {code : Code}
    (h : emitChecked r base = .ok code) : ∃ p, Emitted r base code p := by
  obtain ⟨wrapped, hwrapped, h⟩ := ite_bind_eq_ok.mp h
  obtain ⟨begins, hbegins, h⟩ := ite_bind_eq_ok.mp h
  obtain ⟨entries, hentries, h⟩ := bind_eq_ok.mp h
  obtain ⟨vs, hvetoes, h⟩ := bind_eq_ok.mp h
  obtain ⟨wraps, hwraps, h⟩ := ite_bind_eq_ok.mp h
  obtain ⟨gap, hgap, h⟩ := ite_bind_eq_ok.mp h
  obtain ⟨exits, hexits, h⟩ := bind_eq_ok.mp h
  obtain ⟨finishes, hfinishes, h⟩ := ite_bind_eq_ok.mp h
  obtain rfl := pure_eq_ok.mp h
  simp only [codeSize_append, ← Nat.add_assoc] at hentries hvetoes hwraps hgap hexits hfinishes
  refine ⟨⟨wrapped, begins, entries, vs, wraps, gap, exits, finishes⟩, ?_, hwrapped, hbegins,
    hentries, hvetoes, hwraps, hgap, ?_, ?_, ?_⟩
  · simp only [codeSize_append, ← Nat.add_assoc, List.append_assoc]
    rfl
  · exact hexits
  · exact hfinishes
  · simp only [codeSize_append]
    rfl

/-- The rules of a request that passes the check. -/
theorem Request.check_rules {r : Request} (h : r.check = .ok ()) :
    r.args.length ≤ 6 ∧ (r.replace.isEmpty = false → r.flags.callWrapped = true) := by
  refine ⟨r.check_args h, fun hreplace => ?_⟩
  unfold Request.check at h
  split at h
  · exact absurd h (report_ne_ok _ _)
  split at h
  · exact absurd h (report_ne_ok _ _)
  split at h
  · exact absurd h (report_ne_ok _ _)
  · rename_i hrule
    rw [hreplace] at hrule
    simpa using hrule

/-- Replacing programs need the wrapped call. -/
theorem Request.replace_eq_nil {r : Request} (h : r.check = .ok ())
    (hcall : r.flags.callWrapped = false) : r.replace = [] := by
  cases hempty : r.replace.isEmpty with
  | true => exact List.isEmpty_iff.mp hempty
  | false => exact absurd ((r.check_rules h).2 hempty) (by rw [hcall]; decide)

section Size

/-- The code for one program is short. -/
theorem InvokeParts.length_le {r : Request} {base : Option Address} {offset : Nat} {p : Attached}
    {keep : Bool} {code : List Instr} {enter run exit : Int32} {skip : SignedField}
    (h : InvokeParts r base offset p keep code enter run exit skip) : code.length ≤ 15 := by
  have hkeep : (keepReturn keep).length ≤ 1 := by cases keep <;> decide
  rw [h.code_eq]
  simp only [enterArgs, testAnswer, programCall, exitArgs, List.length_append, List.length_cons,
    List.length_nil]
  omega

variable {r : Request} {base : Option Address} {offset : Nat}

/-- The code for programs grows with their number. -/
theorem length_invokeAll_le {keep : Bool} {programs : List Attached} {code : List Instr}
    (h : invokeAll r base keep offset programs = .ok code) :
    code.length ≤ 15 * programs.length := by
  induction programs generalizing offset code with
  | nil =>
    cases h
    exact Nat.le_refl 0
  | cons p rest ih =>
    obtain ⟨first, hfirst, h⟩ := bind_eq_ok.mp h
    obtain ⟨tail, htail, h⟩ := bind_eq_ok.mp h
    obtain rfl := pure_eq_ok.mp h
    obtain ⟨_, _, _, _, hparts⟩ := invoke_eq_ok hfirst
    have hone := hparts.length_le
    have hrest := ih htail
    rw [List.length_append, List.length_cons]
    omega

/-- The code for replacing programs grows with their number. -/
theorem length_vetoes_le {programs : List Attached} {vs : List Veto}
    (h : vetoes r base offset programs = .ok vs) (target : Nat) :
    (vs.flatMap (Veto.instrs · target)).length ≤ 17 * programs.length := by
  induction programs generalizing offset vs with
  | nil =>
    cases h
    exact Nat.le_refl 0
  | cons p rest ih =>
    obtain ⟨run, tail, hrun, htail, rfl⟩ := vetoes_cons_eq_ok h
    obtain ⟨_, _, _, _, hparts⟩ := invoke_eq_ok hrun
    have hone := hparts.length_le
    have hrest := ih htail
    rw [List.flatMap_cons, List.length_append, List.length_cons, Veto.instrs, List.length_append,
      List.length_append, List.length_singleton, List.length_singleton]
    omega

/-- The code of an outer hook is short. -/
theorem length_outer_le {needed : Bool} {hook : Address} {code : List Instr}
    (h : (if needed then outerHook r base offset hook else pure []) = .ok code) :
    code.length ≤ 2 := by
  split at h
  · obtain ⟨call, _, h⟩ := bind_eq_ok.mp h
    obtain rfl := pure_eq_ok.mp h
    exact Nat.le_refl 2
  · obtain rfl := pure_eq_ok.mp h
    exact Nat.zero_le 2

/-- There are as many arguments to load as the request has, and as many to store. -/
theorem length_argCells (r : Request) : (argCells r).length ≤ r.args.length := by
  rw [argCells, List.length_map, List.length_zipIdx, List.length_zip]
  exact Nat.min_le_right _ _

/-- The code of the wrapped call is short. -/
theorem length_wraps_le {needed : Bool} {wrapped : Address} {code : List Instr}
    (h : (if needed then wrappedCall r base offset wrapped else pure []) = .ok code) :
    code.length ≤ r.args.length + 2 := by
  have hargs := length_argCells r
  split at h
  · obtain ⟨call, _, h⟩ := bind_eq_ok.mp h
    obtain rfl := pure_eq_ok.mp h
    rw [List.length_append, restoreArgs_eq, List.length_map]
    exact Nat.add_le_add_right hargs 2
  · obtain rfl := pure_eq_ok.mp h
    exact Nat.zero_le _

/-- There is little filler. -/
theorem gap_lt {needed : Bool} {gap : Nat}
    (h : (if needed then pure 0 else branchGap base offset) = (.ok gap : Result Error Nat)) :
    gap < 16 := by
  split at h
  · obtain rfl := pure_eq_ok.mp h
    decide
  · obtain ⟨here, hhere, h⟩ := bind_eq_ok.mp h
    obtain ⟨aligned, haligned, h⟩ := bind_eq_ok.mp h
    obtain rfl := pure_eq_ok.mp h
    obtain ⟨_, rfl⟩ := word64_eq_ok.mp haligned
    unfold roundUp
    omega

/-- The size of a trampoline is bounded by the number of its programs. -/
theorem Emitted.size_le {code : Code} {p : Parts} (h : Emitted r base code p)
    (hargs : r.args.length ≤ 6) :
    code.bytes.length ≤ 512 + 187 * (r.entry.length + r.replace.length + r.exit.length) := by
  have hcells := length_argCells r
  have hbegins := length_outer_le h.begins_eq
  have hentries := length_invokeAll_le h.entries_eq
  have hvetoes := length_vetoes_le h.vetoes_eq (p.target r)
  have hwraps := length_wraps_le h.wraps_eq
  have hexits := length_invokeAll_le h.exits_eq
  have hfinishes := length_outer_le h.finishes_eq
  have hgap := gap_lt h.gap_eq
  have hstored : (storeAddress r).length ≤ 3 := by
    unfold storeAddress
    split <;> simp
  have hclearing : (clearing r).length ≤ 2 := by
    unfold clearing
    split <;> simp [clearReturn]
  have hsite : (site r).length ≤ 1 := by
    unfold site
    split <;> simp
  have hrestoring : (restoring r).length ≤ 6 := by
    unfold restoring
    split
    · rw [restoreArgs_eq, List.length_map]
      omega
    · simp
  have hclosing : (closing r).length ≤ 5 := by
    unfold closing
    split <;> split <;> simp
  have hopening : (opening r).length ≤ 15 := by
    rw [opening_eq, saveArgs_eq]
    simp only [List.length_append, List.length_cons, List.length_nil, List.length_map]
    omega
  have hfront := codeSize_le (opening r ++ (p.begins ++ (p.entries ++ (clearing r ++
    (p.vetoes.flatMap (Veto.instrs · (p.target r)) ++ (p.wraps ++ site r))))))
  have hback := codeSize_le (p.behind r (closing r))
  simp only [Parts.behind, List.length_append, codeSize_append] at hfront hback
  rw [Code.bytes, length_encodeAll, h.instrs_eq]
  simp only [Parts.before, Parts.behind, codeSize_append, codeSize_nops]
  omega

end Size

section Stages

variable {x : Linked} {base : Address} {r : Request} {entry s : State} (history : List MadeCall)
  {a : Nat}

/-- The return value is cleared. -/
theorem Setting.goes_clear (hx : Setting x base r entry) (h : Stands r entry s)
    (hk : r.slots.keepsReturn = true) (hcode : HasCode x.code a clearReturn) :
    ∃ t, Goes x r entry history a s (a + codeSize clearReturn) t [] ∧ kept entry t = 0 := by
  obtain ⟨u, hload, hrax, hregs, hmem⟩ := exec_loadImm32 s .rax 0 .narrow
  have hstands := h.of_mem_eq hx.size_le (hregs .rbp (by decide)) (hregs .rsp (by decide)) hmem
  obtain ⟨t, hstore, _, hword, _, huntouched, hstands'⟩ :=
    hstands.store hx.size_le .rax (.inr ⟨rfl, hk⟩)
  have henc : Encodable clearReturn := encodable_cons.mpr ⟨hasOwnEncoding_loadImm32 _ _ _,
    encodable_cons.mpr ⟨(by decide : Reg.rbp.code ≠ 4), encodable_nil⟩⟩
  refine ⟨t, .plain hcode henc ?_ hstands' ?_, hword.trans hrax⟩
  · rw [clearReturn]
    exact (execAll_next hload _).trans (execAll_next hstore [])
  · rw [hmem] at huntouched
    exact huntouched

/-- An outer hook is called, if the wrapped function is. -/
theorem Setting.goes_outer (hx : Setting x base r entry) (h : Stands r entry s) {hook : Address}
    {code : List Instr}
    (hemit : (if r.flags.callWrapped then outerHook r (some base) a hook else pure []) = .ok code)
    (hcode : HasCode x.code a code) :
    ∃ t calls, Goes x r entry history a s (a + codeSize code) t calls ∧
      Single r.flags.callWrapped (IsOuter r hook) calls ∧
      (r.slots.keepsReturn = true → kept entry t = kept entry s) ∧
      (r.flags.callWrapped = false → t = s) := by
  unfold Single
  split at hemit
  · rename_i hcall
    obtain ⟨i, hi, hemit⟩ := bind_eq_ok.mp hemit
    obtain ⟨rel, rfl, haims⟩ := callFrom_eq_ok hi
    obtain rfl := pure_eq_ok.mp hemit
    obtain ⟨u, hload, hrdi, hregs, hmem⟩ := exec_loadImm64 s .rdi r.handle
    have hstands := h.of_mem_eq hx.size_le (hregs .rbp (by decide)) (hregs .rsp (by decide)) hmem
    have hfirst : Goes x r entry history a s _ u [] :=
      ⟨.of_reaches (.next hcode (hasOwnEncoding_loadImm64 _ _) hload), hstands, .of_eq hmem⟩
    obtain ⟨c, hgo, hcalled⟩ := hx.goes_call history hstands hcode.tail haims
    refine ⟨c.after, [c], ?_, ?_, fun hk => ?_, fun hnot => ?_⟩
    · rw [codeSize_cons, codeSize_cons, codeSize_nil]
      exact hfirst.after_plain hgo
    · rw [if_pos hcall]
      exact ⟨c, rfl, hcalled.target_eq, (hcalled.regs_eq .rdi (by decide)).trans hrdi⟩
    · exact (hcalled.kept_eq hx.size_le hk).trans (kept_congr hmem)
    · exact absurd hcall (by rw [hnot]; decide)
  · rename_i hcall
    obtain rfl := pure_eq_ok.mp hemit
    refine ⟨s, [], .plain hcode encodable_nil rfl h (.of_eq rfl), ?_, fun _ => rfl, fun _ => rfl⟩
    rw [if_neg hcall]

/-- The wrapped function is called with its arguments, and what it returns is kept. -/
theorem Setting.goes_wrapped (hx : Setting x base r entry) (h : Stands r entry s)
    (hk : r.slots.keepsReturn = true) {wrapped : Address} {code : List Instr}
    (htarget : wrapped.toBitVec = r.wrapped.toBitVec + (if r.flags.skipFrame then 5 else 0))
    (hemit : wrappedCall r (some base) a wrapped = .ok code) (hcode : HasCode x.code a code) :
    ∃ t c, Goes x r entry history a s (a + codeSize code) t [c] ∧ IsWrapped r entry c ∧
      kept entry t = c.value := by
  obtain ⟨i, hi, hemit⟩ := bind_eq_ok.mp hemit
  obtain ⟨rel, rfl, haims⟩ := callFrom_eq_ok hi
  obtain rfl := pure_eq_ok.mp hemit
  obtain ⟨u, hu, hmem, hstands, hvalues⟩ := h.exec_restoreArgs hx.size_le
  have hload : Goes x r entry history a s _ u [] :=
    .plain hcode.left (encodable_restoreArgs r) hu hstands (.of_eq hmem)
  obtain ⟨c, hgo, hcalled⟩ := hx.goes_call history hstands hcode.right haims
  have hback : HasCode x.code (a + codeSize (restoreArgs r) + 5) (keepReturn true) :=
    hcode.right.tail
  obtain ⟨t, hkeep, _, hkept⟩ := hx.goes_keep (history ++ [c]) hcalled.stands (fun _ => hk) hback
  refine ⟨t, c, ?_, ⟨hcalled.target_eq.trans htarget, ?_⟩, hkept hk⟩
  · rw [codeSize_append, ← Nat.add_assoc]
    exact hload.after_plain (hgo.then_plain hkeep)
  · intro cell hcell
    have hne : ∀ reg ∈ argRegisters, reg ≠ .rsp := by decide
    rw [hcalled.regs_eq _ (hne _ (mem_argCells hcell).1), hvalues cell hcell,
      hcalled.untouched.value_eq hx.size_le hcell, hmem]

/-- Filler is passed. -/
theorem Goes.filler {filler : List Instr} (hfiller : IsFiller filler) (h : Stands r entry s)
    (hcode : HasCode x.code a filler) : Goes x r entry history a s (a + codeSize filler) s [] :=
  .plain hcode (encodable_filler hfiller) (exec_filler hfiller s) h (.of_eq rfl)

/-- The patchable site is filler. -/
theorem isFiller_site (r : Request) : IsFiller (site r) := by
  unfold site
  split
  · intro i hi
    exact ⟨4, List.mem_singleton.mp hi⟩
  · exact isFiller_nil

/-- The wrapped function is called behind the call at its start, if that has to be skipped. -/
theorem Emitted.wrapped_toBitVec {code : Code} {p : Parts} (h : Emitted r (some base) code p) :
    p.wrapped.toBitVec = r.wrapped.toBitVec + (if r.flags.skipFrame then 5 else 0) := by
  rw [h.wrapped_target, Request.wrappedTarget]
  split
  · rfl
  · exact (BitVec.add_zero _).symm

/-- From the wrapped call to the programs behind it: the function is called if it is asked for. -/
theorem Setting.goes_wraps (hx : Setting x base r entry) (h : Stands r entry s) {code : Code}
    {p : Parts} (hp : Emitted r (some base) code p) {back : List Instr}
    (hcode : HasCode x.code (p.wrapsAt r) (p.wraps ++ (site r ++ (nops p.gap ++ back)))) :
    ∃ t calls, Goes x r entry history (p.wrapsAt r) s (p.target r) t calls ∧
      Single r.flags.callWrapped (IsWrapped r entry) calls ∧
      (r.slots.keepsReturn = true →
        kept entry t = (calls.head?.map MadeCall.value).getD (kept entry s)) := by
  have hfiller : ∀ {t : State} {calls : List MadeCall}, Stands r entry t →
      Goes x r entry (history ++ calls) (p.wrapsAt r + codeSize p.wraps) t (p.target r) t [] := by
    intro t calls ht
    have hsite : Goes x r entry (history ++ calls) _ t _ t [] :=
      .filler _ (isFiller_site r) ht hcode.right.left
    have hgap := Goes.filler (history ++ calls) (isFiller_nops p.gap) ht hcode.right.right.left
    rw [codeSize_nops] at hgap
    exact hsite.after_plain hgap
  have hemit := hp.wraps_eq
  unfold Single
  split at hemit
  · rename_i hcall
    have hk : r.slots.keepsReturn = true := by rw [r.keepsReturn_eq, hcall, Bool.true_or]
    obtain ⟨t, c, hgo, hwrapped, hkept⟩ :=
      hx.goes_wrapped history h hk hp.wrapped_toBitVec hemit hcode.left
    refine ⟨t, [c], hgo.then_plain (hfiller hgo.stands), ?_, fun _ => hkept⟩
    rw [if_pos hcall]
    exact ⟨c, rfl, hwrapped⟩
  · rename_i hcall
    have hnil := pure_eq_ok.mp hemit
    have hgo : Goes x r entry history (p.wrapsAt r) s (p.wrapsAt r + codeSize p.wraps) s [] := by
      rw [← hnil]
      exact .filler _ isFiller_nil h (hnil ▸ hcode.left)
    refine ⟨s, [], hgo.then_plain (hfiller h), ?_, fun _ => rfl⟩
    rw [if_neg hcall]

/-- From the replacing programs to the programs behind the function: the function is called if it is
asked for and no replacing program answers. -/
theorem Setting.goes_choice (hx : Setting x base r entry) (h : Stands r entry s) {code : Code}
    {p : Parts} (hp : Emitted r (some base) code p)
    (hcheck : r.replace.isEmpty = false → r.flags.callWrapped = true)
    (hlt : r.replace.isEmpty = false → p.target r < 2 ^ 31) {back : List Instr}
    (hcode : HasCode x.code (p.entriesAt r + codeSize p.entries) (clearing r ++
      (p.vetoes.flatMap (Veto.instrs · (p.target r)) ++ (p.wraps ++ (site r ++
        (nops p.gap ++ back)))))) :
    ∃ t vetoes wraps veto,
      Goes x r entry history (p.entriesAt r + codeSize p.entries) s (p.target r) t
        (vetoes ++ wraps) ∧
      Replaced r entry r.replace vetoes veto ∧
      Single (r.flags.callWrapped && veto.isNone) (IsWrapped r entry) wraps ∧
      (r.slots.keepsReturn = true →
        kept entry t = (veto <|> wraps.head?.map MadeCall.value).getD (kept entry s)) := by
  have hwraps := hcode.right.right
  rw [codeSize_vetoes] at hwraps
  cases hreplace : r.replace.isEmpty with
  | true =>
    have hnil := List.isEmpty_iff.mp hreplace
    have hstart := hp.wrapsAt_eq hnil
    obtain ⟨t, wraps, hgo, hsingle, hkept⟩ := hx.goes_wraps history h hp hwraps
    refine ⟨t, [], wraps, none, ?_, ?_, ?_, hkept⟩
    · rw [← hstart]
      exact hgo
    · rw [hnil]
      exact .nil
    · rw [Option.isNone_none, Bool.and_true]
      exact hsingle
  | false =>
    have hcall := hcheck hreplace
    have hk : r.slots.keepsReturn = true := by rw [r.keepsReturn_eq, hcall, Bool.true_or]
    have hclear : clearing r = clearReturn := by
      rw [clearing, if_neg (by rw [hreplace]; decide)]
    obtain ⟨u, hgo1, hzero⟩ := hx.goes_clear history h hk (hclear ▸ hcode.left)
    rw [← hclear] at hgo1
    obtain ⟨v, vetoes, veto, hgo2, hreplaced, hkept⟩ := hx.goes_vetoes history hgo1.stands hk hzero
      hp.vetoes_eq (p.wrapsAt_le r) (hlt hreplace) hcode.right.left
    cases veto with
    | some value =>
      refine ⟨v, vetoes, [], some value, ?_, hreplaced, ?_, fun _ => by simpa using hkept⟩
      · rw [List.append_nil]
        exact hgo1.after_plain hgo2
      · rw [Option.isNone_some, Bool.and_false]
        rfl
    | none =>
      obtain ⟨t, wraps, hgo3, hsingle, hkept'⟩ :=
        hx.goes_wraps (history ++ vetoes) hgo2.stands hp hwraps
      refine ⟨t, vetoes, wraps, none, (hgo1.after_plain hgo2).trans hgo3, hreplaced, ?_,
        fun _ => ?_⟩
      · rw [Option.isNone_none, Bool.and_true]
        exact hsingle
      · -- a function was called, so there is a value
        rw [Single, if_pos hcall] at hsingle
        obtain ⟨c, rfl, _⟩ := hsingle
        simpa using hkept' hk

/-- From the programs behind the function to the closing. Without a hook behind everything, argument
registers that are reloaded stay as they are. -/
theorem Setting.goes_exits (hx : Setting x base r entry) (h : Stands r entry s) {code : Code}
    {p : Parts} (hp : Emitted r (some base) code p) {back : List Instr}
    (hcode : HasCode x.code (p.target r) (p.behind r back)) :
    ∃ t exits finishes results,
      Goes x r entry history (p.target r) s (p.finishesAt r + codeSize p.finishes) t
        (exits ++ finishes) ∧
      InvokedAll r entry r.exit exits results ∧
      Single r.flags.callWrapped (IsOuter r r.hooks.finish) finishes ∧
      (r.slots.keepsReturn = true → kept entry t = kept entry s) ∧
      (r.flags.restoreRegisters = true → r.flags.callWrapped = false →
        ∀ c ∈ argCells r, t.regs c.reg = c.value (entry.regs .rsp) t.mem) := by
  have hno : false = true → r.slots.keepsReturn = true := nofun
  obtain ⟨u, exits, results, hgo1, hexits, hkept1⟩ :=
    hx.goes_invokeAll history h hno hp.exits_eq hcode.left
  obtain ⟨v, hgo2, hmem, hvalues⟩ : ∃ v, Goes x r entry (history ++ exits) _ u
      (p.target r + codeSize p.exits + codeSize (restoring r)) v [] ∧ v.mem = u.mem ∧
      (r.flags.restoreRegisters = true →
        ∀ c ∈ argCells r, v.regs c.reg = c.value (entry.regs .rsp) v.mem) := by
    have hback := hcode.right.left
    unfold restoring at hback ⊢
    split at hback
    · rename_i hrestore
      obtain ⟨v, hv, hmem, hstands, hvalues⟩ := hgo1.stands.exec_restoreArgs hx.size_le
      rw [if_pos hrestore]
      refine ⟨v, .plain hback (encodable_restoreArgs r) hv hstands (.of_eq hmem), hmem, fun _ => ?_⟩
      rw [hmem]
      exact hvalues
    · rename_i hrestore
      rw [if_neg hrestore]
      exact ⟨u, .filler _ isFiller_nil hgo1.stands hback, rfl, fun hno => absurd hno hrestore⟩
  obtain ⟨t, finishes, hgo3, hfinishes, hkept3, hsame⟩ :=
    hx.goes_outer (history ++ exits) hgo2.stands hp.finishes_eq hcode.right.right.left
  refine ⟨t, exits, finishes, results, hgo1.trans (hgo2.after_plain hgo3), hexits, hfinishes,
    fun hk => ?_, fun hrestore hnot => ?_⟩
  · rw [hkept3 hk, kept_congr hmem, hkept1 hk, if_neg (by decide)]
  · rw [hsame hnot]
    exact hvalues hrestore

/-- A call that is needed unless a replacing program has answered: there is a value in any case. -/
theorem Single.exists_value {kind : MadeCall → Prop} {veto : Option (BitVec 64)}
    {wraps : List MadeCall} (h : Single (true && veto.isNone) kind wraps) :
    ∃ v, (veto <|> wraps.head?.map MadeCall.value) = some v := by
  cases veto with
  | some v => exact ⟨v, rfl⟩
  | none =>
    obtain ⟨c, rfl, _⟩ := h
    exact ⟨c.value, rfl⟩

/-- From the frame to the closing: the calls of the trampoline are made, and its return value is in
the frame. -/
theorem Setting.goes_body (hx : Setting x base r entry) (h : Stands r entry s) {code : Code}
    {p : Parts} (hp : Emitted r (some base) code p)
    (hcheck : r.replace.isEmpty = false → r.flags.callWrapped = true)
    (hlt : r.replace.isEmpty = false → p.target r < 2 ^ 31)
    (hstart : r.slots.keepsReturn = true →
      kept entry s = entry.mem.readWord (cell (entry.regs .rsp) 8)) {back : List Instr}
    (hcode : HasCode x.code (codeSize (opening r)) (p.before r (p.behind r back))) :
    ∃ t calls value,
      Goes x r entry [] (codeSize (opening r)) s (p.finishesAt r + codeSize p.finishes) t calls ∧
      Performed r entry calls value ∧
      (r.slots.keepsReturn = true → kept entry t = value) ∧
      (r.flags.restoreRegisters = true → r.flags.callWrapped = false →
        ∀ c ∈ argCells r, t.regs c.reg = c.value (entry.regs .rsp) t.mem) := by
  have hkeep : r.flags.returnEntryValue = true → r.slots.keepsReturn = true := fun hreturn => by
    rw [r.keepsReturn_eq, hreturn, Bool.or_true]
  obtain ⟨s1, begins, hgo1, hbegins, hkept1, _⟩ := hx.goes_outer [] h hp.begins_eq hcode.left
  obtain ⟨s2, entries, results, hgo2, hentries, hkept2⟩ :=
    hx.goes_invokeAll begins hgo1.stands hkeep hp.entries_eq hcode.right.left
  obtain ⟨s3, vetoes, wraps, veto, hgo3, hvetoes, hwraps, hkept3⟩ :=
    hx.goes_choice (begins ++ entries) hgo2.stands hp hcheck hlt hcode.right.right
  obtain ⟨t, exits, finishes, results', hgo4, hexits, hfinishes, hkept4, hvalues⟩ :=
    hx.goes_exits (begins ++ entries ++ (vetoes ++ wraps)) hgo3.stands hp (p.hasCode_target r hcode)
  have hgo := hgo1.trans (hgo2.trans (hgo3.trans hgo4))
  rw [List.append_assoc vetoes] at hgo
  refine ⟨t, _, _, hgo, .intro hbegins hentries hvetoes hwraps hexits hfinishes, fun hk => ?_,
    hvalues⟩
  rw [hkept4 hk, hkept3 hk, hkept2 hk, hkept1 hk, hstart hk]
  split
  · rfl
  · -- a value is kept and is not that of an earlier program, so the call or a veto gave it
    rename_i hreturn
    have hcall : r.flags.callWrapped = true := by
      rw [r.keepsReturn_eq] at hk
      simpa [hreturn] using hk
    rw [hcall] at hwraps
    obtain ⟨v, hv⟩ := hwraps.exists_value
    rw [hv, Option.getD_some, Option.getD_some]

end Stages

/-- A caller leaves room for a trampoline: below the stack pointer for its frame and for a return
address, and above it for the return address of the trampoline, if that is read. -/
structure Ready (r : Request) (entry : State) : Prop where
  /-- The room below. -/
  below : ∀ a, X64.below (entry.regs .rsp) a < r.slots.size + 24 → entry.mem.mapped a = true
  /-- The return address. -/
  above : r.flags.storeAddress = true →
    ∀ a, (a - entry.regs .rsp).toNat < 8 → entry.mem.mapped a = true

/-- Memory once the frame has been built: the arguments are in their slots, cut to their widths, and
outside the frame nothing has changed. -/
structure Opened (r : Request) (entry : State) (m : Memory) : Prop where
  /-- The arguments. -/
  args_eq : ∀ c ∈ argCells r, c.value (entry.regs .rsp) m =
    BitVec.ofNat 64 ((entry.regs c.reg).toNat % 2 ^ (8 * c.width.bytes))
  /-- Memory outside the frame. -/
  byte_eq : ∀ a, r.slots.size + 16 ≤ X64.below (entry.regs .rsp) a → m.byte a = entry.mem.byte a

/-- The state in which a trampoline returns. -/
structure Returning (r : Request) (entry : State) (value : BitVec 64) (t : State) : Prop where
  /-- The return address is the one that the trampoline found, or the one above it. -/
  rsp_eq : t.regs .rsp = entry.regs .rsp + (if r.flags.skipFrame then 8 else 0)
  /-- The caller finds its frame pointer. -/
  rbp_eq : t.regs .rbp = entry.regs .rbp
  /-- The caller finds its register. -/
  rbx_eq : t.regs .rbx = entry.regs .rbx
  /-- The value is returned, if it is kept. -/
  rax_eq : r.slots.keepsReturn = true → t.regs .rax = value
  /-- The arguments are in their registers, if they are reloaded and no hook is called
  afterwards. -/
  args_eq : r.flags.restoreRegisters = true → r.flags.callWrapped = false →
    ∀ c ∈ argCells r, t.regs c.reg = c.value (entry.regs .rsp) t.mem

/-- Code that runs from its start to a return and makes the calls of a trampoline on the way: each
of them finds the arguments, and memory outside the frame, as the one before has left them. -/
def Performs (r : Request) (x : Linked) (entry : State) : Prop :=
  ∃ calls value opened offset t, x.Makes [] 0 entry offset t calls ∧
    fetch x.code offset = some (.ret, x.code.length) ∧ Performed r entry calls value ∧
    Opened r entry opened ∧ Threads r.slots (entry.regs .rsp) opened calls t.mem ∧
    Returning r entry value t

/-- The closing is at the end of a trampoline. -/
theorem Emitted.closing_end {r : Request} {base : Option Address} {code : Code} {p : Parts}
    (h : Emitted r base code p) :
    p.finishesAt r + codeSize p.finishes + codeSize (closing r) = code.bytes.length := by
  have hfront := p.codeSize_front r
  rw [Code.bytes, length_encodeAll, h.instrs_eq]
  simp only [Parts.before, Parts.behind, codeSize_append, Parts.finishesAt]
  omega

/-- The closing takes the frame down and ends at the return. -/
theorem Stands.makes_closing {x : Linked} {r : Request} {entry s : State} (h : Stands r entry s)
    (hsize : r.slots.size ≤ 112) (history : List MadeCall) {a : Nat}
    (hcode : HasCode x.code a (closing r)) :
    ∃ offset t, x.Makes history a s offset t [] ∧
      fetch x.code offset = some (.ret, a + codeSize (closing r)) ∧ t.mem = s.mem ∧
      t.regs .rsp = entry.regs .rsp + (if r.flags.skipFrame then 8 else 0) ∧
      t.regs .rbp = entry.regs .rbp ∧ t.regs .rbx = entry.regs .rbx ∧
      (r.slots.keepsReturn = true → t.regs .rax = kept entry s) ∧
      ∀ reg ∈ argRegisters, t.regs reg = s.regs reg := by
  obtain ⟨t, ht, hmem, hrsp, hrbp, hrbx, hrax, hargs⟩ := h.exec_takeDown hsize
  have henc := encodable_closing r
  rw [closing_eq] at hcode henc
  refine ⟨_, t, .execAll hcode.left (encodable_append.mp henc).1 ht, ?_, hmem, hrsp, hrbp, hrbx,
    hrax, hargs⟩
  rw [closing_eq, codeSize_append _ [.ret], ← Nat.add_assoc]
  exact hcode.right.fetch_eq trivial

/-- The code of an emitted trampoline performs its calls. -/
theorem Emitted.performs {x : Linked} {r : Request} {base : Address} {code : Code} {p : Parts}
    {entry : State} (hp : Emitted r (some base) code p) (hcheck : r.check = .ok ())
    (hshort : r.replace = [] ∨ code.bytes.length < 2 ^ 31) (hx : Setting x base r entry)
    (hbytes : x.code = code.bytes) (hready : Ready r entry) : Performs r x entry := by
  obtain ⟨hargs, hrule⟩ := r.check_rules hcheck
  have hend := hp.closing_end
  have hlt : r.replace.isEmpty = false → p.target r < 2 ^ 31 := fun hreplace => by
    -- the branches stay within the code
    have hlong := hshort.resolve_left fun hnil => by
      rw [hnil] at hreplace
      cases hreplace
    unfold Parts.finishesAt at hend
    omega
  have hcode : HasCode x.code 0 code.instrs :=
    ⟨[], by rw [hbytes, List.drop_zero, List.append_nil, Code.bytes]⟩
  rw [hp.instrs_eq] at hcode
  have hbody := hcode.right
  rw [Nat.zero_add] at hbody
  obtain ⟨s, hexec, hstands, hvalues, houter, hkept⟩ := exec_opening hargs hready.below hready.above
  have hopening : x.Makes [] 0 entry _ s [] := .execAll hcode.left (encodable_opening r) hexec
  rw [Nat.zero_add] at hopening
  obtain ⟨u, calls, value, hgo, hperformed, hvalue, hrestored⟩ :=
    hx.goes_body hstands hp hrule hlt hkept hbody
  obtain ⟨offset, t, hmakes, hret, hmem, hrsp, hrbp, hrbx, hrax, hregs⟩ :=
    hgo.stands.makes_closing hx.size_le calls (p.hasCode_target r hbody).right.right.right
  refine ⟨calls, value, s.mem, offset, t, ?_, ?_, hperformed, ⟨hvalues, houter⟩, ?_, hrsp, hrbp,
    hrbx, fun hk => (hrax hk).trans (hvalue hk), fun hrestore hnot c hc => ?_⟩
  · have hall := hopening.trans (hgo.makes.trans hmakes)
    rw [List.nil_append, List.append_nil] at hall
    exact hall
  · rw [hret, hbytes, ← hend]
    rfl
  · rw [hmem]
    exact hgo.threads
  · rw [hregs c.reg (mem_argCells hc).1, hmem]
    exact hrestored hrestore hnot c hc

/-- The code of a trampoline, with replacing programs if it is shorter than two gigabytes, runs from
its start to its return for every caller that leaves room for the frame. It makes the calls that the
request asks for, in order, and returns with the caller's stack and registers. -/
theorem trampoline_performs {r : Request} {base : Address} {code : Code}
    (h : emit r (some base) = .ok code) :
    code.bytes.length ≤ 512 + 187 * (r.entry.length + r.replace.length + r.exit.length) ∧
    ∀ (entry : State) (callees : Callees), (r.replace = [] ∨ code.bytes.length < 2 ^ 31) →
      Ready r entry → Normal r.slots (entry.regs .rsp) callees →
      Performs r ⟨code.bytes, base.toBitVec, callees⟩ entry := by
  obtain ⟨_, hcheck, hemit⟩ := bind_eq_ok.mp h
  obtain ⟨p, hp⟩ := emitChecked_eq_ok hemit
  have hargs := r.check_args hcheck
  refine ⟨hp.size_le hargs, fun entry callees hshort hready hnormal => ?_⟩
  exact hp.performs hcheck hshort ⟨rfl, Request.slots_size_le hargs, hnormal⟩ rfl hready

/-- Functions that do nothing but return a number, which depends on the function alone. -/
def answering (answer : BitVec 64 → BitVec 64) : Callees := fun _ target s =>
  (s.setReg .rsp (s.regs .rsp + 8)).setReg .rax (answer target)

/-- Functions that do nothing but return a number return normally. -/
theorem normal_answering (z : Slots) (sp : BitVec 64) (answer : BitVec 64 → BitVec 64) :
    Normal z sp (answering answer) where
  rsp_eq := fun _ _ _ _ => rfl
  rbx_eq := fun _ _ _ _ => rfl
  rbp_eq := fun _ _ _ _ => rfl
  byte_eq := fun _ _ _ _ _ _ _ => rfl
  mapped := fun _ _ _ _ _ _ h => h

/-- A request for a trampoline with programs of every kind, one of them sleepable. -/
def busyRequest : Request where
  args := [8, 4, 1]
  flags :=
    { restoreRegisters := true, callWrapped := true, skipFrame := true, storeAddress := true }
  entry := [⟨0x11, 0x401000, 0xC1, true⟩]
  replace := [⟨0x22, 0x402000, 0xC2, false⟩, ⟨0x33, 0x403000, 0xC3, false⟩,
    ⟨0x44, 0x404000, 0xC4, false⟩]
  exit := [⟨0x55, 0x405000, 0xC5, false⟩]
  hooks := ⟨0x500000, 0x500100, 0x500200, 0x500300, 0x500400, 0x500500⟩
  wrapped := 0x600000
  handle := 0xFF

/-- A caller with all memory to itself. -/
def wideCaller : State where
  regs := fun reg => if reg = .rsp then 0x7FFF0000 else 0xABCDEF
  flags := none
  mem := ⟨fun _ => 0, fun _ => true⟩

/-- Programs that all run; the second replacing one returns a number other than zero. -/
def secondAnswers (target : BitVec 64) : BitVec 64 :=
  if target = 0x500000 ∨ target = 0x500200 then 1 else if target = 0x403000 then 7 else 0

/-- What a run of so many steps has returned in `rax`, and the functions that it has called. -/
def traced (x : Linked) (count : Nat) (entry : State) : Option (BitVec 64 × List (BitVec 64)) :=
  (x.run count ⟨0, entry, []⟩).map fun m => (m.state.regs .rax, m.calls.map MadeCall.target)

/-- The trampoline of `busyRequest` performs its calls. The second replacing program answers, so the
third one and the wrapped function are not called, and its number is returned. -/
theorem trampoline_performs_busyRequest :
    ∃ code, emit busyRequest (some 0x400000) = .ok code ∧
      traced ⟨code.bytes, 0x400000, answering secondAnswers⟩ 87 wideCaller =
        some (7, [0x500400, 0x500200, 0x401000, 0x500300, 0x500000, 0x402000, 0x500100,
          0x500000, 0x403000, 0x500100, 0x500000, 0x405000, 0x500100, 0x500500]) ∧
      Performs busyRequest ⟨code.bytes, 0x400000, answering secondAnswers⟩ wideCaller := by
  have hemit : ((emit busyRequest (some 0x400000)).toOption.map fun code =>
      traced ⟨code.bytes, 0x400000, answering secondAnswers⟩ 87 wideCaller) =
      some (some (7, [0x500400, 0x500200, 0x401000, 0x500300, 0x500000, 0x402000, 0x500100,
        0x500000, 0x403000, 0x500100, 0x500000, 0x405000, 0x500100, 0x500500])) := by
    decide +kernel
  cases hok : emit busyRequest (some 0x400000) with
  | error f =>
    rw [hok] at hemit
    cases hemit
  | ok code =>
    rw [hok] at hemit
    obtain ⟨hsize, hperforms⟩ := trampoline_performs hok
    have hnumber : busyRequest.entry.length + busyRequest.replace.length +
        busyRequest.exit.length = 5 := rfl
    exact ⟨code, rfl, Option.some.inj hemit, hperforms wideCaller (answering secondAnswers)
      (.inr (by omega)) ⟨fun _ _ => rfl, fun _ _ _ => rfl⟩ (normal_answering _ _ _)⟩

end NativeForge.Trampoline
