import NativeForge.Proofs.ControlPaths
import NativeForge.Proofs.TrampolineRelocation

/-!
# The return value of a trampoline on every path

A trampoline that keeps a return value loads it from its slot before it returns. The slot is written
behind the wrapped call, before the first replacing program, and behind each program whose value is
asked for. Each program may be refused at run time, so the slot is written on every control path
exactly if the wrapped function is called. If the value of the programs before the function is asked
for, a path writes the slot exactly if it runs one of them; there is a path that runs none.
-/

namespace NativeForge.Trampoline

open X64 Target

/-- The instruction writes the slot of the return value. -/
def storesReturn : Instr → Bool
  | .store .double .rbp _ disp => disp == returnSlot
  | _ => false

/-- The instruction hands the arguments to the program that is called next. -/
def handsOver (r : Request) : Instr → Bool
  | .lea .rdi .rbp disp => disp == below r.slots.args
  | _ => false

/-- The instruction goes on behind itself, and has nothing to do with the return value or with
programs. -/
structure IsQuiet (r : Request) (i : Instr) : Prop where
  /-- Control goes on. -/
  passes_on : i.passesOn = true
  /-- There is no jump. -/
  distance_eq : i.distance? = none
  /-- The return value is not written. -/
  store_eq : storesReturn i = false
  /-- No program gets arguments. -/
  hand_eq : handsOver r i = false

/-- Instructions in a row that have nothing to do with the return value or with programs. -/
def Quiet (r : Request) (code : List Instr) : Prop := ∀ i ∈ code, IsQuiet r i

section Quiet

variable {r : Request} {i : Instr} {front back : List Instr}

/-- No instructions are quiet. -/
theorem quiet_nil : Quiet r [] := List.forall_mem_nil _

/-- Quiet instructions, by the first of them. -/
theorem quiet_cons : Quiet r (i :: back) ↔ IsQuiet r i ∧ Quiet r back := List.forall_mem_cons

/-- Quiet instructions in two parts. -/
theorem quiet_append : Quiet r (front ++ back) ↔ Quiet r front ∧ Quiet r back :=
  List.forall_mem_append

/-- Quiet instructions do not write the return value. -/
theorem Quiet.any_stores (h : Quiet r front) : front.any storesReturn = false :=
  List.any_eq_false.mpr fun i hi => by rw [(h i hi).store_eq]; decide

/-- Quiet instructions run no program. -/
theorem Quiet.any_hands (h : Quiet r front) : front.any (handsOver r) = false :=
  List.any_eq_false.mpr fun i hi => by rw [(h i hi).hand_eq]; decide

/-- A call of anything is quiet. -/
theorem isQuiet_call (rel : Int32) : IsQuiet r (.call rel) := ⟨rfl, rfl, rfl, rfl⟩

/-- A load of a number is quiet. -/
theorem isQuiet_loadImm64 (dst : Reg) (imm : UInt64) : IsQuiet r (loadImm64 dst imm) := by
  unfold loadImm64 loadImm32
  split
  · split
    · exact ⟨rfl, rfl, rfl, rfl⟩
    · split <;> exact ⟨rfl, rfl, rfl, rfl⟩
  · exact ⟨rfl, rfl, rfl, rfl⟩

/-- Arithmetic with a number is quiet. -/
theorem isQuiet_aluWithImm (op : AluOp) (size : OpSize) (dst : Reg) (imm : Int32) :
    IsQuiet r (aluWithImm op size dst imm) := by
  unfold aluWithImm
  split
  · exact ⟨rfl, rfl, rfl, rfl⟩
  · split <;> exact ⟨rfl, rfl, rfl, rfl⟩

/-- A store below the slot of the return value is quiet. -/
theorem isQuiet_store_below {n : Nat} (width : Width) (reg : Reg) (hlo : 8 < n) (hhi : n < 2 ^ 31) :
    IsQuiet r (.store width .rbp reg (below n)) := by
  have hne : below n ≠ returnSlot := by
    intro heq
    have hvalue := congrArg SignedField.value heq
    rw [below, value_shortest, Int32.toInt_ofInt_of_le (by omega) (by omega)] at hvalue
    have hslot : returnSlot.value = -8 := rfl
    omega
  refine ⟨rfl, rfl, ?_, rfl⟩
  cases width with
  | double => exact beq_false_of_ne hne
  | byte | half | word => rfl

variable (r)

/-- Loads of arguments are quiet. -/
theorem quiet_restoreArgs : Quiet r (restoreArgs r) := by
  intro i hi
  obtain ⟨_, _, rfl⟩ := List.mem_map.mp hi
  exact ⟨rfl, rfl, rfl, rfl⟩

/-- The reload of the arguments is quiet. -/
theorem quiet_restoring : Quiet r (restoring r) := by
  unfold restoring
  split
  · exact quiet_restoreArgs r
  · exact quiet_nil

/-- The reload of the arguments can be read back. -/
theorem encodable_restoring : Encodable (restoring r) := by
  unfold restoring
  split
  · exact encodable_restoreArgs r
  · exact encodable_nil

/-- The opening is quiet: what it stores is below the slot of the return value. -/
theorem quiet_opening {r : Request} (hargs : r.args.length ≤ 6)
    (hkeeps : r.slots.keepsReturn = true) : Quiet r (opening r) := by
  obtain ⟨hslots, hcount, haddress, hcontext, hle, _⟩ := r.slots_order
  have hsize := Request.slots_size_le hargs
  have hkept := Slots.kept_eq hkeeps
  have hstored : Quiet r (storeAddress r) := by
    unfold storeAddress
    split
    · exact quiet_cons.mpr ⟨⟨rfl, rfl, rfl, rfl⟩, quiet_cons.mpr ⟨isQuiet_aluWithImm _ _ _ _,
        quiet_cons.mpr ⟨isQuiet_store_below _ _ (by omega) (by omega), quiet_nil⟩⟩⟩
    · exact quiet_nil
  have hsaves : Quiet r (saveArgs r) := by
    rw [saveArgs_eq]
    intro i hi
    obtain ⟨c, hc, rfl⟩ := List.mem_map.mp hi
    obtain ⟨_, hlo, hhi⟩ := mem_argCells hc
    exact isQuiet_store_below _ _ (by omega) (by omega)
  rw [opening_eq]
  simp only [quiet_append, quiet_cons, isQuiet_aluWithImm, isQuiet_loadImm64, hstored, hsaves,
    isQuiet_store_below .double .rax (show 8 < r.slots.count by omega) (by omega), quiet_nil,
    and_true, true_and]
  exact ⟨⟨rfl, rfl, rfl, rfl⟩, ⟨rfl, rfl, rfl, rfl⟩, ⟨rfl, rfl, rfl, rfl⟩⟩

/-- An outer hook is quiet, and can be read back. -/
theorem quiet_outer {r : Request} {base : Option Address} {offset : Nat} {needed : Bool}
    {hook : Address} {code : List Instr}
    (h : (if needed then outerHook r base offset hook else pure []) = .ok code) :
    Quiet r code ∧ Encodable code := by
  have hcode := outer_eq_ok h
  split at hcode
  · obtain ⟨rel, rfl⟩ := hcode
    exact ⟨quiet_cons.mpr ⟨isQuiet_loadImm64 _ _, quiet_cons.mpr ⟨isQuiet_call rel, quiet_nil⟩⟩,
      encodable_cons.mpr ⟨hasOwnEncoding_loadImm64 _ _,
        encodable_cons.mpr ⟨trivial, encodable_nil⟩⟩⟩
  · subst hcode
    exact ⟨quiet_nil, encodable_nil⟩

end Quiet

section Invocations

variable {r : Request} {base : Option Address} {bytes : List UInt8} {a : Nat} {p : Attached}
  {keep : Bool} {code : List Instr}

/-- The return value is written exactly if a program is run and its value is asked for. -/
def Keeps (r : Request) (keep : Bool) (trace : List Instr) : Prop :=
  trace.any storesReturn = (keep && trace.any (handsOver r))

/-- Parts that keep the values of their programs. -/
theorem Keeps.append {front back : List Instr} (h1 : Keeps r keep front) (h2 : Keeps r keep back) :
    Keeps r keep (front ++ back) := by
  unfold Keeps at h1 h2 ⊢
  rw [List.any_append, List.any_append, h1, h2, Bool.and_or_distrib_left]

/-- Quiet instructions have no programs and write no return value. -/
theorem Quiet.keeps (h : Quiet r code) (keep : Bool) : Keeps r keep code := by
  rw [Keeps, h.any_stores, h.any_hands, Bool.and_false]

/-- Every path through quiet instructions has no programs and writes no return value. -/
theorem Quiet.crosses (h : Quiet r code) (hcode : HasCode bytes a code) (henc : Encodable code)
    (keep : Bool) : Crosses bytes a (a + codeSize code) (Keeps r keep) :=
  (Crosses.straight hcode henc fun i hi => (h i hi).distance_eq).mono fun _ heq => heq ▸ h.keeps keep

/-- There is a path through quiet instructions. -/
theorem Quiet.path (h : Quiet r code) (hcode : HasCode bytes a code) (henc : Encodable code) :
    Path bytes a code (a + codeSize code) :=
  .straight hcode henc fun i hi => (h i hi).passes_on

/-- Call the hook before a program and test its answer. -/
def hookBefore (r : Request) (p : Attached) (enter : Int32) : List Instr :=
  enterArgs r p ++ .call enter :: testAnswer

/-- Call a program, and keep its value if it is asked for. -/
def programBody (r : Request) (keep : Bool) (run : Int32) : List Instr :=
  programCall r run ++ keepReturn keep

/-- Call the hook behind a program. -/
def hookBehind (r : Request) (p : Attached) (exit : Int32) : List Instr :=
  exitArgs r p ++ [.call exit]

/-- The hook before a program is quiet, and can be read back. -/
theorem quiet_hookBefore (hargs : r.args.length ≤ 6) (p : Attached) (enter : Int32) :
    Quiet r (hookBefore r p enter) ∧ Encodable (hookBefore r p enter) := by
  obtain ⟨_, hcount, haddress, hcontext, hle, _⟩ := r.slots_order
  have hsize := Request.slots_size_le hargs
  constructor
  · simp only [hookBefore, enterArgs, testAnswer, quiet_append, quiet_cons, isQuiet_loadImm64,
      isQuiet_call, isQuiet_store_below .double .rdi (show 8 < r.slots.context by omega)
      (show r.slots.context < 2 ^ 31 by omega), quiet_nil, and_true, true_and]
    exact ⟨⟨rfl, rfl, rfl, rfl⟩, ⟨rfl, rfl, rfl, rfl⟩, ⟨rfl, rfl, rfl, rfl⟩⟩
  · exact encodable_append.mpr ⟨encodable_enterArgs r p, encodable_cons.mpr ⟨trivial,
      encodable_cons.mpr ⟨trivial, encodable_cons.mpr ⟨trivial, encodable_nil⟩⟩⟩⟩

/-- The hook behind a program is quiet, and can be read back. -/
theorem quiet_hookBehind (p : Attached) (exit : Int32) :
    Quiet r (hookBehind r p exit) ∧ Encodable (hookBehind r p exit) := by
  constructor
  · simp only [hookBehind, exitArgs, quiet_append, quiet_cons, isQuiet_loadImm64, isQuiet_call,
      quiet_nil, and_true, true_and]
    exact ⟨⟨rfl, rfl, rfl, rfl⟩, ⟨rfl, rfl, rfl, rfl⟩⟩
  · exact encodable_append.mpr ⟨encodable_exitArgs r p,
      encodable_cons.mpr ⟨trivial, encodable_nil⟩⟩

/-- The call of a program can be read back and does not jump. -/
theorem encodable_programBody (r : Request) (keep : Bool) (run : Int32) :
    Encodable (programBody r keep run) ∧ ∀ i ∈ programBody r keep run, i.distance? = none := by
  have hbase : Reg.rbp.code ≠ 4 := by decide
  cases keep with
  | true =>
    refine ⟨encodable_cons.mpr ⟨hbase, encodable_cons.mpr ⟨trivial,
      encodable_cons.mpr ⟨hbase, encodable_nil⟩⟩⟩, ?_⟩
    exact List.forall_mem_cons.mpr ⟨rfl, List.forall_mem_cons.mpr ⟨rfl,
      List.forall_mem_singleton.mpr rfl⟩⟩
  | false =>
    refine ⟨encodable_cons.mpr ⟨hbase, encodable_cons.mpr ⟨trivial, encodable_nil⟩⟩, ?_⟩
    exact List.forall_mem_cons.mpr ⟨rfl, List.forall_mem_singleton.mpr rfl⟩

/-- A program that is called gets its arguments, and the return value is written if it is kept. -/
theorem any_programBody (r : Request) (keep : Bool) (run : Int32) :
    (programBody r keep run).any storesReturn = keep ∧
      (programBody r keep run).any (handsOver r) = true := by
  constructor
  · cases keep <;> rfl
  · exact List.any_eq_true.mpr ⟨.lea .rdi .rbp (below r.slots.args), by simp [programBody,
      programCall], beq_self_eq_true _⟩

/-- The code for one program, where it stands: in front of the branch, the branch, the program, and
behind it. -/
theorem InvokeParts.stands {enter run exit : Int32} {skip : SignedField}
    (h : InvokeParts r base a p keep code enter run exit skip) (hcode : HasCode bytes a code) :
    HasCode bytes a (hookBefore r p enter ++ .jcc .equal skip ::
      (programBody r keep run ++ hookBehind r p exit)) ∧
    skip.value = codeSize (programBody r keep run) ∧
    a + codeSize code = a + codeSize (hookBefore r p enter) + (Instr.jcc .equal skip).size +
      codeSize (programBody r keep run) + codeSize (hookBehind r p exit) := by
  have hsplit : code = hookBefore r p enter ++ .jcc .equal skip ::
      (programBody r keep run ++ hookBehind r p exit) := by
    rw [h.code_eq]
    simp only [hookBefore, programBody, hookBehind, List.append_assoc, List.cons_append]
  refine ⟨hsplit ▸ hcode, ?_, ?_⟩
  · rw [h.skip_eq, programBody, codeSize_append]
  · rw [hsplit, codeSize_append, codeSize_cons, codeSize_append]
    omega

/-- Every path through the code for one program writes the return value exactly if it runs the
program and the value is asked for. -/
theorem invoke_crosses (hargs : r.args.length ≤ 6) (h : invoke r base a p keep = .ok code)
    (hcode : HasCode bytes a code) : Crosses bytes a (a + codeSize code) (Keeps r keep) := by
  obtain ⟨enter, run, exit, skip, hparts⟩ := invoke_eq_ok h
  obtain ⟨hcode, hskip, hstop⟩ := hparts.stands hcode
  obtain ⟨hquiet, henc⟩ := quiet_hookBefore hargs p enter
  obtain ⟨hquiet', henc'⟩ := quiet_hookBehind (r := r) p exit
  obtain ⟨hbody, hplain⟩ := encodable_programBody r keep run
  obtain ⟨hstores, hhands⟩ := any_programBody r keep run
  have hbranch : Crosses bytes (a + codeSize (hookBefore r p enter))
      (a + codeSize (hookBefore r p enter) + (Instr.jcc .equal skip).size +
        codeSize (programBody r keep run)) (Keeps r keep) := by
    have hsize := hparts.size_skip
    refine (Crosses.branch hcode.right (by rw [hskip]; omega) (by omega)
      (.straight hcode.right.tail.left hbody hplain)).mono ?_
    rintro trace (rfl | ⟨body, rfl, rfl⟩)
    · exact (Bool.and_false keep).symm
    · rw [Keeps, List.any_cons, List.any_cons, hstores, hhands, Bool.or_true, Bool.and_true]
      rfl
  rw [hstop]
  have hfront := (hquiet.crosses hcode.left henc keep).trans hbranch (by omega)
    fun _ _ => Keeps.append
  exact hfront.trans (hquiet'.crosses hcode.right.tail.right henc' keep) (by omega)
    fun _ _ => Keeps.append

/-- Every path through the code for programs writes the return value exactly if it runs one of them
and the value is asked for. -/
theorem invokeAll_crosses (hargs : r.args.length ≤ 6) {programs : List Attached}
    (h : invokeAll r base keep a programs = .ok code) (hcode : HasCode bytes a code) :
    Crosses bytes a (a + codeSize code) (Keeps r keep) := by
  induction programs generalizing a code with
  | nil =>
    cases h
    exact quiet_nil.crosses hcode encodable_nil keep
  | cons p rest ih =>
    obtain ⟨first, hfirst, h⟩ := bind_eq_ok.mp h
    obtain ⟨tail, htail, h⟩ := bind_eq_ok.mp h
    obtain rfl := pure_eq_ok.mp h
    rw [codeSize_append, ← Nat.add_assoc]
    exact (invoke_crosses hargs hfirst hcode.left).trans (ih htail hcode.right) (by omega)
      fun _ _ => Keeps.append

/-- There is a path through the code for programs that runs none of them. -/
theorem invokeAll_path (hargs : r.args.length ≤ 6) {programs : List Attached}
    (h : invokeAll r base keep a programs = .ok code) (hcode : HasCode bytes a code) :
    ∃ trace, Path bytes a trace (a + codeSize code) ∧ trace.any storesReturn = false := by
  induction programs generalizing a code with
  | nil =>
    cases h
    exact ⟨[], .nil, rfl⟩
  | cons p rest ih =>
    obtain ⟨first, hfirst, h⟩ := bind_eq_ok.mp h
    obtain ⟨tail, htail, h⟩ := bind_eq_ok.mp h
    obtain rfl := pure_eq_ok.mp h
    obtain ⟨enter, run, exit, skip, hparts⟩ := invoke_eq_ok hfirst
    obtain ⟨hone, hskip, hstop⟩ := hparts.stands hcode.left
    obtain ⟨hquiet, henc⟩ := quiet_hookBefore hargs p enter
    obtain ⟨hquiet', henc'⟩ := quiet_hookBehind (r := r) p exit
    obtain ⟨trace, hpath, hstores⟩ := ih htail hcode.right
    have hjump : Path bytes (a + codeSize (hookBefore r p enter)) [.jcc .equal skip]
        (a + codeSize (hookBefore r p enter) + (Instr.jcc .equal skip).size +
          codeSize (programBody r keep run)) :=
      .cons (.jump (hone.right.fetch_eq trivial) rfl (by rw [hskip]; omega)) .nil
    have hbehind := hquiet'.path hone.right.tail.right henc'
    rw [← hstop] at hbehind
    rw [codeSize_append, ← Nat.add_assoc]
    refine ⟨_, (hquiet.path hone.left henc).append (hjump.append (hbehind.append hpath)), ?_⟩
    simp only [List.any_append, hquiet.any_stores, hquiet'.any_stores, hstores]
    rfl

end Invocations

/-- Taking the frame down is quiet. -/
theorem quiet_takeDown (r : Request) : Quiet r (takeDown r) := by
  have hload : Quiet r (loadReturn r) := by
    unfold loadReturn
    split
    · exact quiet_cons.mpr ⟨⟨rfl, rfl, rfl, rfl⟩, quiet_nil⟩
    · exact quiet_nil
  have hdrop : Quiet r (dropReturn r) := by
    unfold dropReturn
    split
    · exact quiet_cons.mpr ⟨isQuiet_aluWithImm _ _ _ _, quiet_nil⟩
    · exact quiet_nil
  refine quiet_append.mpr ⟨hload, quiet_append.mpr ⟨?_, hdrop⟩⟩
  exact quiet_cons.mpr ⟨⟨rfl, rfl, rfl, rfl⟩, quiet_cons.mpr ⟨⟨rfl, rfl, rfl, rfl⟩, quiet_nil⟩⟩

/-- Instructions in a row that write the return value. -/
structure Stores (part : List Instr) : Prop where
  /-- They can be read back. -/
  encodable : Encodable part
  /-- None of them jumps. -/
  plain : ∀ i ∈ part, i.distance? = none
  /-- One of them writes the return value. -/
  any_eq : part.any storesReturn = true

/-- Clearing the return value writes it. -/
theorem stores_clearReturn : Stores clearReturn where
  encodable := encodable_cons.mpr ⟨hasOwnEncoding_loadImm32 _ _ _,
    encodable_cons.mpr ⟨(by decide : Reg.rbp.code ≠ 4), encodable_nil⟩⟩
  plain := by decide
  any_eq := by decide

/-- The wrapped call writes the return value. -/
theorem stores_wrappedCall {r : Request} {base : Option Address} {a : Nat} {wrapped : Address}
    {code : List Instr} (h : wrappedCall r base a wrapped = .ok code) : Stores code := by
  obtain ⟨i, hi, h⟩ := bind_eq_ok.mp h
  obtain ⟨rel, rfl, _⟩ := callFrom_leads hi
  obtain rfl := pure_eq_ok.mp h
  refine ⟨encodable_append.mpr ⟨encodable_restoreArgs r, encodable_cons.mpr ⟨trivial,
    encodable_cons.mpr ⟨(by decide : Reg.rbp.code ≠ 4), encodable_nil⟩⟩⟩, ?_, ?_⟩
  · refine List.forall_mem_append.mpr ⟨fun i hi => (quiet_restoreArgs r i hi).distance_eq, ?_⟩
    exact List.forall_mem_cons.mpr ⟨rfl, List.forall_mem_singleton.mpr rfl⟩
  · rw [List.any_append]
    exact Bool.or_true _

/-- Where the closing starts. -/
def Parts.closingAt (p : Parts) (r : Request) : Nat := p.finishesAt r + codeSize p.finishes

namespace Emitted

variable {r : Request} {base : Option Address} {code : Code} {p : Parts}

/-- From the programs behind the function on, the parts stand at their offset. -/
theorem hasCode_behind (h : Emitted r base code p) :
    HasCode code.bytes (p.target r) (p.behind r (closing r)) :=
  ⟨[], by rw [h.drop_target, List.append_nil]⟩

/-- The closing stands at its offset. -/
theorem hasCode_closing (h : Emitted r base code p) :
    HasCode code.bytes (p.closingAt r) (closing r) := h.hasCode_behind.right.right.right

/-- From the closing, control does not come back to it. -/
theorem path_closing (h : Emitted r base code p) {trace : List Instr}
    (hpath : Path code.bytes (p.closingAt r) trace (p.closingAt r)) : trace = [] := by
  have hcode := h.hasCode_closing
  have henc := encodable_closing r
  rw [closing_eq] at hcode henc
  have hplain := fun i hi => (quiet_takeDown r i hi).distance_eq
  exact (hpath.forward hcode (encodable_append.mp henc).1 hplain).resolve_right (Nat.lt_irrefl _)

/-- Every path through the opening, the outer hook and the programs before the function writes the
return value exactly if it runs one of these programs and the value is asked for. -/
theorem crosses_entries (h : Emitted r base code p) (hargs : r.args.length ≤ 6)
    (hkeeps : r.slots.keepsReturn = true) :
    Crosses code.bytes 0 (p.entriesAt r + codeSize p.entries)
      (Keeps r r.flags.returnEntryValue) := by
  obtain ⟨hbegins, henc⟩ := quiet_outer h.begins_eq
  have hopening := (quiet_opening hargs hkeeps).crosses h.hasCode_start.left (encodable_opening r)
    r.flags.returnEntryValue
  rw [Nat.zero_add] at hopening
  have hfront := hopening.trans (hbegins.crosses h.hasCode_body.left henc r.flags.returnEntryValue)
    (by omega) fun _ _ => Keeps.append
  exact hfront.trans (invokeAll_crosses hargs h.entries_eq h.hasCode_body.right.left)
    (Nat.le_add_right _ _) fun _ _ => Keeps.append

/-- Instructions in a row that write the return value, behind the programs before the function. -/
theorem crosses_stores (h : Emitted r base code p) (hargs : r.args.length ≤ 6)
    (hkeeps : r.slots.keepsReturn = true) {part : List Instr} (hpart : Stores part)
    (hcode : HasCode code.bytes (p.entriesAt r + codeSize p.entries) part) :
    Crosses code.bytes 0 (p.entriesAt r + codeSize p.entries + codeSize part)
      fun trace => trace.any storesReturn = true := by
  refine (h.crosses_entries hargs hkeeps).trans (.straight hcode hpart.encodable hpart.plain)
    (by omega) fun front back _ heq => ?_
  rw [heq, List.any_append, hpart.any_eq, Bool.or_true]

/-- If the wrapped function is called, every path writes the return value in front of the closing:
it is cleared if there are replacing programs, and otherwise the function is called in any case. -/
theorem crosses_call (h : Emitted r base code p) (hargs : r.args.length ≤ 6)
    (hcall : r.flags.callWrapped = true) :
    ∃ stop, stop ≤ p.closingAt r ∧
      Crosses code.bytes 0 stop fun trace => trace.any storesReturn = true := by
  have hkeeps : r.slots.keepsReturn = true := by rw [r.keepsReturn_eq, hcall, Bool.true_or]
  have hle := p.wrapsAt_le r
  by_cases hreplace : r.replace = []
  · have hwraps := h.wraps_eq
    rw [if_pos hcall] at hwraps
    have hat := h.wrapsAt_eq hreplace
    refine ⟨_, ?_, h.crosses_stores hargs hkeeps (stores_wrappedCall hwraps)
      (hat ▸ h.hasCode_wraps.left)⟩
    unfold Parts.closingAt Parts.finishesAt Parts.target Parts.gapAt
    omega
  · have hclearing : clearing r = clearReturn :=
      if_neg (by rw [List.isEmpty_iff]; exact hreplace)
    have hcode : HasCode code.bytes (p.entriesAt r + codeSize p.entries) (clearing r) :=
      h.hasCode_body.right.right.left
    refine ⟨_, ?_, h.crosses_stores hargs hkeeps (hclearing ▸ stores_clearReturn) hcode⟩
    unfold Parts.wrapsAt Parts.vetoesAt at hle
    unfold Parts.closingAt Parts.finishesAt
    omega

/-- If the wrapped function is not called, the programs behind it follow those before it, and the
closing follows the reload of the arguments. -/
theorem offsets_uncalled (h : Emitted r base code p) (hcheck : r.check = .ok ())
    (hcall : r.flags.callWrapped = false) :
    p.target r = p.entriesAt r + codeSize p.entries ∧ p.closingAt r = p.finishesAt r := by
  have hno : ¬r.flags.callWrapped = true := by rw [hcall]; decide
  have hreplace := r.replace_eq_nil hcheck hcall
  have hwraps := h.wraps_eq
  have hfinishes := h.finishes_eq
  rw [if_neg hno] at hwraps hfinishes
  have hsite : site r = [] := if_neg hno
  constructor
  · rw [Parts.target, Parts.gapAt, h.gap_eq_zero hreplace, hsite, ← pure_eq_ok.mp hwraps,
      h.wrapsAt_eq hreplace, codeSize_nil, Nat.add_zero]
  · rw [Parts.closingAt, ← pure_eq_ok.mp hfinishes]
    rfl

/-- No path through the programs behind the function writes the return value. -/
theorem crosses_behind (h : Emitted r base code p) (hargs : r.args.length ≤ 6) :
    Crosses code.bytes (p.target r) (p.finishesAt r) (Keeps r false) :=
  (invokeAll_crosses hargs h.exits_eq h.hasCode_behind.left).trans
    ((quiet_restoring r).crosses h.hasCode_behind.right.left (encodable_restoring r) false)
    (Nat.le_add_right _ _) fun _ _ => Keeps.append

/-- If the wrapped function is not called, a path up to the closing goes through the start of the
programs behind the function, and writes the return value exactly if it has run a program before
that. -/
theorem paths_uncalled (h : Emitted r base code p) (hcheck : r.check = .ok ())
    (hkeeps : r.slots.keepsReturn = true) (hcall : r.flags.callWrapped = false)
    {trace : List Instr} (hpath : Path code.bytes 0 trace (p.closingAt r)) :
    ∃ front back, trace = front ++ back ∧ Path code.bytes 0 front (p.target r) ∧
      Path code.bytes (p.target r) back (p.closingAt r) ∧
      trace.any storesReturn = front.any (handsOver r) := by
  have hargs := r.check_args hcheck
  have hreturn : r.flags.returnEntryValue = true := by
    rw [r.keepsReturn_eq, hcall, Bool.false_or] at hkeeps
    exact hkeeps
  obtain ⟨htarget, hclosing⟩ := h.offsets_uncalled hcheck hcall
  have hfront := h.crosses_entries hargs hkeeps
  rw [← htarget, hreturn] at hfront
  have hbehind := h.crosses_behind hargs
  rw [← hclosing] at hbehind
  have hle : p.target r ≤ p.closingAt r := by
    unfold Parts.closingAt Parts.finishesAt
    omega
  obtain ⟨front, rest, rfl, hkeeps, hpath1, hrest⟩ := hfront _ _ hle hpath
  obtain ⟨back, tail, rfl, hquiet, hpath2, htail⟩ := hbehind _ _ (Nat.le_refl _) hrest
  obtain rfl := h.path_closing htail
  rw [List.append_nil]
  refine ⟨front, back, rfl, hpath1, hpath2, ?_⟩
  rw [List.any_append, show back.any storesReturn = false from hquiet, Bool.or_false]
  exact hkeeps

/-- If the wrapped function is not called, there is a path up to the closing that does not write the
return value: every program is refused. -/
theorem exists_path_uncalled (h : Emitted r base code p) (hcheck : r.check = .ok ())
    (hkeeps : r.slots.keepsReturn = true) (hcall : r.flags.callWrapped = false) :
    ∃ trace, Path code.bytes 0 trace (p.closingAt r) ∧ trace.any storesReturn = false := by
  have hargs := r.check_args hcheck
  obtain ⟨htarget, hclosing⟩ := h.offsets_uncalled hcheck hcall
  have hopening := quiet_opening hargs hkeeps
  obtain ⟨hbegins, henc⟩ := quiet_outer h.begins_eq
  obtain ⟨entries, hentries, hnone⟩ :=
    invokeAll_path hargs h.entries_eq h.hasCode_body.right.left
  obtain ⟨exits, hexits, hnone'⟩ := invokeAll_path hargs h.exits_eq h.hasCode_behind.left
  have hstart := hopening.path h.hasCode_start.left (encodable_opening r)
  rw [Nat.zero_add] at hstart
  have hfront := hstart.append ((hbegins.path h.hasCode_body.left henc).append hentries)
  have hback := hexits.append
    ((quiet_restoring r).path h.hasCode_behind.right.left (encodable_restoring r))
  rw [htarget] at hback
  rw [hclosing, Parts.finishesAt, htarget]
  refine ⟨_, hfront.append hback, ?_⟩
  simp only [List.any_append, hopening.any_stores, hbegins.any_stores, hnone, hnone',
    (quiet_restoring r).any_stores, Bool.or_false]

end Emitted

section Values

variable {r : Request} {entry : State} {calls : List MadeCall}

/-- What a program returned was returned by a call. -/
theorem Invoked.exists_call {p : Attached} {v : BitVec 64}
    (h : Invoked r entry p calls (some v)) : ∃ c ∈ calls, v = c.value := by
  cases h with
  | ran _ _ _ _ => exact ⟨_, List.mem_cons_of_mem _ List.mem_cons_self, rfl⟩

/-- The number of a replacing program was returned by a call. -/
theorem Replaced.exists_call {programs : List Attached} {v : BitVec 64}
    (h : Replaced r entry programs calls (some v)) : ∃ c ∈ calls, v = c.value := by
  generalize hveto : some v = veto at h
  induction h with
  | nil => cases hveto
  | pass _ _ _ ih =>
    obtain ⟨c, hc, hv⟩ := ih hveto
    exact ⟨c, List.mem_append_right _ hc, hv⟩
  | veto hfirst _ =>
    cases hveto
    exact hfirst.exists_call

/-- The last value of some programs was returned by a call, unless none of them has run. -/
theorem InvokedAll.lastResult_from {programs : List Attached}
    {results : List (Option (BitVec 64))} (h : InvokedAll r entry programs calls results)
    (start : BitVec 64) :
    (∃ c ∈ calls, lastResult start results = c.value) ∨ lastResult start results = start := by
  induction h generalizing start with
  | nil => exact .inr rfl
  | @cons p rest calls calls' result results hfirst _ ih =>
    rw [show lastResult start (result :: results) = lastResult (result.getD start) results from rfl]
    rcases ih (result.getD start) with ⟨c, hc, hv⟩ | hsame
    · exact .inl ⟨c, List.mem_append_right _ hc, hv⟩
    · rw [hsame]
      cases result with
      | none => exact .inr rfl
      | some v =>
        obtain ⟨c, hc, hv⟩ := hfirst.exists_call
        exact .inl ⟨c, List.mem_append_left _ hc, hv⟩

/-- The value of a trampoline was returned by a call, unless the wrapped function is not called and
no program before it has run: then it is what was in the slot at entry. -/
theorem Performed.value_from {value : BitVec 64} (h : Performed r entry calls value) :
    (∃ c ∈ calls, value = c.value) ∨ (r.flags.callWrapped = false ∧
      value = entry.mem.readWord (cell (entry.regs .rsp) 8)) := by
  cases h with
  | @intro begins entries vetoes wraps exits finishes results results' veto _ hentries hvetoes hwraps
      _ _ =>
    cases veto with
    | some v =>
      obtain ⟨c, hc, hv⟩ := hvetoes.exists_call
      exact .inl ⟨c, by simp [hc], hv⟩
    | none =>
      cases hcall : r.flags.callWrapped with
      | true =>
        rw [hcall] at hwraps
        obtain ⟨c, rfl, _⟩ := hwraps
        exact .inl ⟨c, by simp, rfl⟩
      | false =>
        rw [hcall] at hwraps
        obtain rfl : wraps = [] := hwraps
        rcases hentries.lastResult_from (entry.mem.readWord (cell (entry.regs .rsp) 8)) with
          ⟨c, hc, hv⟩ | hsame
        · exact .inl ⟨c, by simp [hc], hv⟩
        · exact .inr ⟨rfl, hsame⟩

end Values

/-- Code that runs from its start to its return, with a value that one of the calls on the way has
returned, or else, if the wrapped function is not called, with what was in the slot at entry. -/
def ReturnsAnswer (r : Request) (x : Linked) (entry : State) : Prop :=
  ∃ calls offset t, x.Makes [] 0 entry offset t calls ∧
    fetch x.code offset = some (.ret, x.code.length) ∧
    ((∃ c ∈ calls, t.regs .rax = c.value) ∨ (r.flags.callWrapped = false ∧
      t.regs .rax = entry.mem.readWord (cell (entry.regs .rsp) 8)))

/-- Every control path to the closing writes the return value exactly if the wrapped function is
called. Otherwise a path writes it exactly if it hands the arguments to a program before it gets to
the programs behind the function, and a run may return what was in the slot at entry. -/
theorem return_slot_written_iff {r : Request} {base : Option Address} {code : Code}
    (h : emit r base = .ok code) (hkeeps : r.slots.keepsReturn = true) :
    ∃ stop reload,
      (∃ exits, invokeAll r base false stop r.exit = .ok exits ∧ HasCode code.bytes stop exits) ∧
      fetch code.bytes reload = some (.load .double .rax .rbp returnSlot, reload + 4) ∧
      HasCode code.bytes reload (closing r) ∧
      reload + codeSize (closing r) = code.bytes.length ∧
      ((∀ trace, Path code.bytes 0 trace reload → trace.any storesReturn = true) ↔
        r.flags.callWrapped = true) ∧
      (r.flags.callWrapped = false → ∀ trace, Path code.bytes 0 trace reload →
        ∃ front back, trace = front ++ back ∧ Path code.bytes 0 front stop ∧
          Path code.bytes stop back reload ∧
          (trace.any storesReturn = true ↔ front.any (handsOver r) = true)) ∧
      ∀ address entry callees, base = some address →
        (r.replace = [] ∨ code.bytes.length < 2 ^ 31) → Ready r entry →
        Normal r.slots (entry.regs .rsp) callees →
        ReturnsAnswer r ⟨code.bytes, address.toBitVec, callees⟩ entry := by
  obtain ⟨hcheck, p, hp⟩ := emit_eq_ok h
  have hargs := r.check_args hcheck
  have hclosing := hp.hasCode_closing
  have hload : fetch code.bytes (p.closingAt r) =
      some (.load .double .rax .rbp returnSlot, p.closingAt r + 4) := by
    have hcode := hclosing
    rw [closing_eq, takeDown, loadReturn, if_pos hkeeps] at hcode
    exact hcode.fetch_eq (by decide : Reg.rbp.code ≠ 4)
  refine ⟨p.target r, p.closingAt r, ⟨p.exits, hp.exits_eq, hp.hasCode_behind.left⟩, hload,
    hclosing, hp.closing_end, ⟨fun hall => ?_, fun hcall trace hpath => ?_⟩,
    fun hcall trace hpath => ?_, ?_⟩
  · cases hcall : r.flags.callWrapped with
    | true => rfl
    | false =>
      obtain ⟨trace, hpath, hnone⟩ := hp.exists_path_uncalled hcheck hkeeps hcall
      rw [hall trace hpath] at hnone
      cases hnone
  · obtain ⟨stop, hle, hcrosses⟩ := hp.crosses_call hargs hcall
    obtain ⟨front, back, rfl, hfront, _⟩ := hcrosses _ trace hle hpath
    rw [List.any_append, hfront, Bool.true_or]
  · obtain ⟨front, back, htrace, hpath1, hpath2, hany⟩ :=
      hp.paths_uncalled hcheck hkeeps hcall hpath
    exact ⟨front, back, htrace, hpath1, hpath2, by rw [hany]⟩
  · rintro address entry callees rfl hshort hready hnormal
    have hperforms : Performs r ⟨code.bytes, address.toBitVec, callees⟩ entry :=
      hp.performs hcheck hshort ⟨rfl, Request.slots_size_le hargs, hnormal⟩ rfl hready
    obtain ⟨calls, value, _, offset, t, hmakes, hret, hperformed, _, _, hreturning⟩ := hperforms
    refine ⟨calls, offset, t, hmakes, hret, ?_⟩
    rw [hreturning.rax_eq hkeeps]
    exact hperformed.value_from

/-- In the trampoline of `busyRequest` a run gets to the load of the return value, and it is on a
path that has written the slot. -/
theorem return_slot_written_busyRequest :
    ∃ code reload trace, emit busyRequest (some 0x400000) = .ok code ∧
      busyRequest.slots.keepsReturn = true ∧
      fetch code.bytes reload = some (.load .double .rax .rbp returnSlot, reload + 4) ∧
      Path code.bytes 0 trace reload ∧ trace.any storesReturn = true ∧
      ReturnsAnswer busyRequest ⟨code.bytes, 0x400000, answering secondAnswers⟩ wideCaller := by
  have hemit : ((emit busyRequest (some 0x400000)).toOption.map fun code =>
      (code.bytes.length, (Linked.run ⟨code.bytes, 0x400000, answering secondAnswers⟩ 83
        ⟨0, wideCaller, []⟩).map fun m => m.offset + codeSize (closing busyRequest))) =
      some (458, some 458) := by
    decide +kernel
  obtain ⟨code, hok, hrun⟩ := Option.map_eq_some_iff.mp hemit
  have hok := toOption_eq_some.mp hok
  obtain ⟨hlength, hrun⟩ := Prod.mk.inj hrun
  obtain ⟨m, hrun, hoffset⟩ := Option.map_eq_some_iff.mp hrun
  obtain ⟨trace, hpath⟩ := Linked.path_of_run hrun
  obtain ⟨_, reload, _, hload, _, hend, hwritten, _, hreturns⟩ := return_slot_written_iff hok rfl
  have hreload : m.offset = reload := by omega
  rw [hreload] at hpath
  exact ⟨code, reload, trace, hok, rfl, hload, hpath, hwritten.mpr rfl trace hpath,
    hreturns 0x400000 wideCaller (answering secondAnswers) rfl (.inr (by omega))
      ⟨fun _ _ => rfl, fun _ _ _ => rfl⟩ (normal_answering _ _ _)⟩

/-- A request for the value of one program before the function, which is not called. -/
def refusedRequest : Request where
  args := [8]
  flags := { returnEntryValue := true }
  entry := [⟨0x11, 0x401000, 0xC1, false⟩]
  hooks := ⟨0x500000, 0x500100, 0x500200, 0x500300, 0x500400, 0x500500⟩
  wrapped := 0x600000
  handle := 0x42

/-- A caller that has left other data on the stack. -/
def staleCaller : State := { wideCaller with mem := ⟨fun _ => 0xEE, fun _ => true⟩ }

/-- The hook refuses the program of `refusedRequest`. Then the slot is not written on the way to the
closing, and the trampoline returns what the caller had left there. -/
theorem stale_value_refusedRequest :
    ∃ code reload trace, emit refusedRequest (some 0x400000) = .ok code ∧
      refusedRequest.slots.keepsReturn = true ∧
      HasCode code.bytes reload (closing refusedRequest) ∧
      Path code.bytes 0 trace reload ∧ trace.any storesReturn = false ∧
      ((Linked.run ⟨code.bytes, 0x400000, answering fun _ => 0⟩ 22 ⟨0, staleCaller, []⟩).map
        fun m => (fetch code.bytes m.offset, m.state.regs .rax)) =
        some (some (.ret, code.bytes.length), 0xEEEEEEEEEEEEEEEE) := by
  have hemit : ((emit refusedRequest (some 0x400000)).toOption.map fun code =>
      (code.bytes.length,
        (Linked.run ⟨code.bytes, 0x400000, answering fun _ => 0⟩ 22 ⟨0, staleCaller, []⟩).map
          fun m => (fetch code.bytes m.offset, m.state.regs .rax))) =
      some (90, some (some (.ret, 90), 0xEEEEEEEEEEEEEEEE)) := by
    decide +kernel
  obtain ⟨code, hok, hrun⟩ := Option.map_eq_some_iff.mp hemit
  have hok := toOption_eq_some.mp hok
  obtain ⟨hcheck, p, hp⟩ := emit_eq_ok hok
  obtain ⟨trace, hpath, hnone⟩ := hp.exists_path_uncalled hcheck rfl rfl
  obtain ⟨hlength, hrun⟩ := Prod.mk.inj hrun
  rw [← hlength] at hrun
  exact ⟨code, p.closingAt refusedRequest, trace, hok, rfl, hp.hasCode_closing, hpath, hnone, hrun⟩

end NativeForge.Trampoline
