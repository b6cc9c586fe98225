import NativeForge.Proofs.LoweredConditions
import NativeForge.Proofs.TrampolineFrames

/-!
# What trampolines call

A trampoline calls the outer hook, the programs before the function between their hooks, the
replacing programs until one of them answers, the function unless one did, the programs behind it
and the outer hook again. `Performed` says which calls that are, with their arguments and with what
the answers decide; it does not mention code. The code for one program, and from it the code for a
list of programs, makes the calls that are listed for it, whatever the functions do that it calls.
-/

namespace NativeForge.Trampoline

open X64 Target

/-- The hook before a program. -/
def Request.enterHook (r : Request) (p : Attached) : Address :=
  if p.sleepable then r.hooks.sleepableEnter else r.hooks.enter

/-- The hook behind a program. -/
def Request.exitHook (r : Request) (p : Attached) : Address :=
  if p.sleepable then r.hooks.sleepableExit else r.hooks.exit

section Specification

variable (r : Request) (entry : State)

/-- The call of the hook before a program: it gets the program and the context, which holds the
program's cookie. -/
structure IsEnter (p : Attached) (c : MadeCall) : Prop where
  /-- The hook. -/
  target_eq : c.target = (r.enterHook p).toBitVec
  /-- The program. -/
  handle_eq : c.before.regs .rdi = p.handle.toBitVec
  /-- The context. -/
  context_eq : c.before.regs .rsi = cell (entry.regs .rsp) r.slots.context
  /-- The cookie. -/
  cookie_eq : c.before.mem.readWord (cell (entry.regs .rsp) r.slots.context) = p.cookie.toBitVec

/-- The call of a program: it gets the arguments of the function, with their number and the address
of the function below them. -/
structure IsRun (p : Attached) (c : MadeCall) : Prop where
  /-- The program. -/
  target_eq : c.target = p.entry.toBitVec
  /-- The arguments. -/
  args_eq : c.before.regs .rdi = cell (entry.regs .rsp) r.slots.args
  /-- The number of arguments. -/
  count_eq : c.before.mem.readWord (cell (entry.regs .rsp) r.slots.count) =
    BitVec.ofNat 64 r.args.length
  /-- The address of the function, if it is asked for. -/
  address_eq : r.flags.storeAddress = true →
    c.before.mem.readWord (cell (entry.regs .rsp) r.slots.address) =
      entry.mem.readWord (entry.regs .rsp) - 5

/-- The call of the hook behind a program: it gets the program, what the hook before it returned,
and the context. -/
structure IsExit (p : Attached) (started : BitVec 64) (c : MadeCall) : Prop where
  /-- The hook. -/
  target_eq : c.target = (r.exitHook p).toBitVec
  /-- The program. -/
  handle_eq : c.before.regs .rdi = p.handle.toBitVec
  /-- What the hook before the program returned. -/
  started_eq : c.before.regs .rsi = started
  /-- The context. -/
  context_eq : c.before.regs .rdx = cell (entry.regs .rsp) r.slots.context

/-- The call of an outer hook: it gets the trampoline. -/
structure IsOuter (hook : Address) (c : MadeCall) : Prop where
  /-- The hook. -/
  target_eq : c.target = hook.toBitVec
  /-- The trampoline. -/
  handle_eq : c.before.regs .rdi = r.handle.toBitVec

/-- The call of the wrapped function, behind the call at its start if that has to be skipped: it
gets the arguments as they are in their slots. -/
structure IsWrapped (c : MadeCall) : Prop where
  /-- The function. -/
  target_eq : c.target = r.wrapped.toBitVec + (if r.flags.skipFrame then 5 else 0)
  /-- The arguments. -/
  args_eq : ∀ a ∈ argCells r, c.before.regs a.reg = a.value (entry.regs .rsp) c.before.mem

/-- The calls for one program, and what the program returned if it ran: it runs unless the hook
before it returns zero. -/
inductive Invoked (p : Attached) : List MadeCall → Option (BitVec 64) → Prop
  | refused {enter exit : MadeCall} (henter : IsEnter r entry p enter) (hzero : enter.value = 0)
      (hexit : IsExit r entry p enter.value exit) : Invoked p [enter, exit] none
  | ran {enter run exit : MadeCall} (henter : IsEnter r entry p enter) (hvalue : enter.value ≠ 0)
      (hrun : IsRun r entry p run) (hexit : IsExit r entry p enter.value exit) :
      Invoked p [enter, run, exit] (some run.value)

/-- The calls for programs one behind the other, and what they returned. -/
inductive InvokedAll : List Attached → List MadeCall → List (Option (BitVec 64)) → Prop
  | nil : InvokedAll [] [] []
  | cons {p : Attached} {rest : List Attached} {calls calls' : List MadeCall}
      {result : Option (BitVec 64)} {results : List (Option (BitVec 64))}
      (hfirst : Invoked r entry p calls result) (hrest : InvokedAll rest calls' results) :
      InvokedAll (p :: rest) (calls ++ calls') (result :: results)

/-- The calls for replacing programs, up to the first one that runs and returns a number other than
zero, and that number. -/
inductive Replaced : List Attached → List MadeCall → Option (BitVec 64) → Prop
  | nil : Replaced [] [] none
  | pass {p : Attached} {rest : List Attached} {calls calls' : List MadeCall}
      {result veto : Option (BitVec 64)} (hfirst : Invoked r entry p calls result)
      (hzero : result.getD 0 = 0) (hrest : Replaced rest calls' veto) :
      Replaced (p :: rest) (calls ++ calls') veto
  | veto {p : Attached} {rest : List Attached} {calls : List MadeCall} {v : BitVec 64}
      (hfirst : Invoked r entry p calls (some v)) (hvalue : v ≠ 0) :
      Replaced (p :: rest) calls (some v)

/-- One call of a kind if it is needed, and none otherwise. -/
def Single (needed : Bool) (kind : MadeCall → Prop) (calls : List MadeCall) : Prop :=
  if needed then ∃ c, calls = [c] ∧ kind c else calls = []

/-- What the last program that ran returned, or else a number given before. -/
def lastResult (start : BitVec 64) (results : List (Option (BitVec 64))) : BitVec 64 :=
  results.foldl (fun kept result => result.getD kept) start

/-- The calls of a trampoline in order, and the value that it returns if it keeps one: the number of
the replacing program that answered, or what the function returned, or what the last program before
it returned. -/
inductive Performed : List MadeCall → BitVec 64 → Prop
  | intro {begins entries vetoes wraps exits finishes : List MadeCall}
      {results results' : List (Option (BitVec 64))} {veto : Option (BitVec 64)}
      (hbegins : Single r.flags.callWrapped (IsOuter r r.hooks.begin) begins)
      (hentries : InvokedAll r entry r.entry entries results)
      (hvetoes : Replaced r entry r.replace vetoes veto)
      (hwraps : Single (r.flags.callWrapped && veto.isNone) (IsWrapped r entry) wraps)
      (hexits : InvokedAll r entry r.exit exits results')
      (hfinishes : Single r.flags.callWrapped (IsOuter r r.hooks.finish) finishes) :
      Performed (begins ++ (entries ++ (vetoes ++ (wraps ++ (exits ++ finishes)))))
        ((veto <|> wraps.head?.map MadeCall.value).getD
          (lastResult (entry.mem.readWord (cell (entry.regs .rsp) 8)) results))

end Specification

/-- From one memory to another through calls: between the calls, the arguments and memory outside
the frame are as the call before left them. -/
def Threads (z : Slots) (sp : BitVec 64) : Memory → List MadeCall → Memory → Prop
  | m, [], m' => Untouched z sp m m'
  | m, c :: rest, m' => Untouched z sp m c.before.mem ∧ Threads z sp c.after.mem rest m'

/-- Calls follow each other. -/
theorem Threads.append {z : Slots} {sp : BitVec 64} {m m' m'' : Memory}
    {calls calls' : List MadeCall} (h1 : Threads z sp m calls m')
    (h2 : Threads z sp m' calls' m'') :
    Threads z sp m (calls ++ calls') m'' := by
  induction calls generalizing m with
  | nil =>
    cases calls' with
    | nil => exact Untouched.trans h1 h2
    | cons c rest => exact ⟨Untouched.trans h1 h2.1, h2.2⟩
  | cons c rest ih => exact ⟨h1.1, ih h1.2⟩

/-- A trampoline gets from one offset and state to others by calls, and its frame stands. -/
structure Goes (x : Linked) (r : Request) (entry : State) (history : List MadeCall) (a : Nat)
    (s : State) (b : Nat) (t : State) (calls : List MadeCall) : Prop where
  /-- The calls are made. -/
  makes : x.Makes history a s b t calls
  /-- The frame stands. -/
  stands : Stands r entry t
  /-- Memory is threaded through the calls. -/
  threads : Threads r.slots (entry.regs .rsp) s.mem calls t.mem

namespace Goes

variable {x : Linked} {r : Request} {entry s t u : State} {history calls calls' : List MadeCall}
  {a b c : Nat}

/-- Ways follow each other. -/
theorem trans (h1 : Goes x r entry history a s b t calls)
    (h2 : Goes x r entry (history ++ calls) b t c u calls') :
    Goes x r entry history a s c u (calls ++ calls') :=
  ⟨h1.makes.trans h2.makes, h2.stands, h1.threads.append h2.threads⟩

/-- Ways follow each other, the first one without calls. -/
theorem after_plain (h1 : Goes x r entry history a s b t [])
    (h2 : Goes x r entry history b t c u calls) : Goes x r entry history a s c u calls := by
  rw [← List.append_nil history] at h2
  exact h1.trans h2

/-- Ways follow each other, the second one without calls. -/
theorem then_plain (h1 : Goes x r entry history a s b t calls)
    (h2 : Goes x r entry (history ++ calls) b t c u []) : Goes x r entry history a s c u calls := by
  rw [← List.append_nil calls]
  exact h1.trans h2

/-- Instructions that go on one behind the other and leave arguments and frame alone. -/
theorem plain {instrs : List Instr} (hcode : HasCode x.code a instrs) (henc : Encodable instrs)
    (hexec : execAll instrs s = some t) (hstands : Stands r entry t)
    (hmem : Untouched r.slots (entry.regs .rsp) s.mem t.mem) :
    Goes x r entry history a s (a + codeSize instrs) t [] :=
  ⟨.execAll hcode henc hexec, hstands, hmem⟩

/-- A branch that is taken. -/
theorem jump {cond : Cond} {rel : SignedField} {back : List Instr} {target : Nat} {f : X64.Flags}
    (hcode : HasCode x.code a (.jcc cond rel :: back)) (hstands : Stands r entry s)
    (hflags : s.flags = some f) (hholds : cond.holds f = true)
    (htarget : ((a + (Instr.jcc cond rel).size : Nat) : Int) + rel.value = target) :
    Goes x r entry history a s target s [] := by
  have hexec : (Instr.jcc cond rel).exec s = some (s, .jump rel.value) := by
    rw [Instr.exec, hflags, Option.bind_some, if_pos hholds]
  exact ⟨.of_reaches (.jump hcode trivial hexec htarget), hstands, Untouched.of_eq rfl⟩

/-- A branch that is not taken. -/
theorem pass {cond : Cond} {rel : SignedField} {back : List Instr} {f : X64.Flags}
    (hcode : HasCode x.code a (.jcc cond rel :: back)) (hstands : Stands r entry s)
    (hflags : s.flags = some f) (hholds : cond.holds f = false) :
    Goes x r entry history a s (a + (Instr.jcc cond rel).size) s [] := by
  have hexec : (Instr.jcc cond rel).exec s = some (s, .next) := by
    rw [Instr.exec, hflags, Option.bind_some, if_neg (by rw [hholds]; decide)]
  exact ⟨.of_reaches (.next hcode trivial hexec), hstands, Untouched.of_eq rfl⟩

end Goes

/-- A call at an offset of an image leads to a function. -/
def Aims (base : Address) (offset : Nat) (rel : Int32) (target : Address) : Prop :=
  base.toBitVec + BitVec.ofNat 64 (offset + 5) + BitVec.ofInt 64 rel.toInt = target.toBitVec

/-- An emitted call leads to its function. -/
theorem callFrom_eq_ok {base target : Address} {offset : Nat} {i : Instr}
    (h : callFrom (some base) offset target = .ok i) :
    ∃ rel, i = .call rel ∧ Aims base offset rel target := by
  obtain ⟨next, hn, h⟩ := bind_eq_ok.mp h
  obtain ⟨rel, hr, h⟩ := bind_eq_ok.mp h
  obtain ⟨_, rfl⟩ := signedWord64_eq_ok.mp hr
  split at h
  · rename_i hfits
    exact ⟨_, (pure_eq_ok.mp h).symm, (add_displacement hn hfits).trans BitVec.ofInt_toInt⟩
  · exact absurd h (outOfRange_ne_ok _ _ _)

/-- A call at an offset of an image leads to a function. Without an address of the image it is a
placeholder. -/
def Leads : Option Address → Nat → Int32 → Address → Prop
  | none, _, rel, _ => rel = 0
  | some base, offset, rel, target => Aims base offset rel target

/-- An emitted call leads to its function, if the address of the image is known. -/
theorem callFrom_leads {base : Option Address} {target : Address} {offset : Nat} {i : Instr}
    (h : callFrom base offset target = .ok i) :
    ∃ rel, i = .call rel ∧ Leads base offset rel target := by
  cases base with
  | none => exact ⟨0, (Except.ok.inj h).symm, rfl⟩
  | some base => exact callFrom_eq_ok h

/-- Code at the address of its image, for a request with a small frame and among functions that
return normally. -/
structure Setting (x : Linked) (base : Address) (r : Request) (entry : State) : Prop where
  /-- The address. -/
  base_eq : x.base = base.toBitVec
  /-- The frame is small. -/
  size_le : r.slots.size ≤ 112
  /-- The functions return normally. -/
  normal : Normal r.slots (entry.regs .rsp) x.callees

section Pieces

variable {x : Linked} {base : Address} {r : Request} {entry s : State} (history : List MadeCall)
  {a : Nat} {p : Attached}

/-- A call that leads to a function is made from a standing frame. -/
theorem Setting.goes_call (hx : Setting x base r entry) (h : Stands r entry s) {rel : Int32}
    {target : Address} {back : List Instr} (hcode : HasCode x.code a (.call rel :: back))
    (haims : Aims base a rel target) :
    ∃ c, Goes x r entry history a s (a + 5) c.after [c] ∧ Called r entry s target.toBitVec c := by
  have htarget : x.base + BitVec.ofNat 64 (a + 5) + BitVec.ofInt 64 rel.toInt =
      target.toBitVec := by
    rw [hx.base_eq]
    exact haims
  obtain ⟨c, hmakes, hcalled⟩ := h.call hx.size_le hx.normal history hcode htarget
  exact ⟨c, ⟨hmakes, hcalled.stands, hcalled.untouched, Untouched.of_eq rfl⟩, hcalled⟩

/-- The return value in memory. -/
def kept (entry s : State) : BitVec 64 := s.mem.readWord (cell (entry.regs .rsp) 8)

/-- The return value stays with memory. -/
theorem kept_congr {t : State} (h : t.mem = s.mem) : kept entry t = kept entry s := by
  rw [kept, h, kept]

/-- A function leaves the return value alone. -/
theorem Called.kept_eq {target : BitVec 64} {c : MadeCall} (h : Called r entry s target c)
    (hsize : r.slots.size ≤ 112) (hk : r.slots.keepsReturn = true) :
    kept entry c.after = kept entry s := by
  have hkept := Slots.kept_eq hk
  obtain ⟨_, hcount, haddress, hcontext, hle, _⟩ := r.slots_order
  exact (h.readWord_eq (by omega) hsize (.inl (by omega))).2

/-- The arguments of the hook before a program. -/
theorem Stands.exec_enterArgs (h : Stands r entry s) (hsize : r.slots.size ≤ 112) (p : Attached) :
    ∃ t, execAll (enterArgs r p) s = some t ∧ Stands r entry t ∧
      Untouched r.slots (entry.regs .rsp) s.mem t.mem ∧ t.regs .rdi = p.handle.toBitVec ∧
      t.regs .rsi = cell (entry.regs .rsp) r.slots.context ∧
      t.mem.readWord (cell (entry.regs .rsp) r.slots.context) = p.cookie.toBitVec ∧
      (r.slots.keepsReturn = true → kept entry t = kept entry s) := by
  obtain ⟨hargs, hcount, haddress, hcontext, hle, _⟩ := r.slots_order
  obtain ⟨s1, h1, hrdi1, hregs1, hmem1⟩ := exec_loadImm64 s .rdi p.cookie
  have hstands1 := h.of_mem_eq hsize (hregs1 .rbp (by decide)) (hregs1 .rsp (by decide)) hmem1
  obtain ⟨s2, h2, hregs2, hword, hother, huntouched, hstands2⟩ :=
    hstands1.store hsize .rdi (.inl rfl)
  obtain ⟨s3, h3, hrdi3, hregs3, hmem3⟩ := exec_loadImm64 s2 .rdi p.handle
  have hstands3 :=
    hstands2.of_mem_eq hsize (hregs3 .rbp (by decide)) (hregs3 .rsp (by decide)) hmem3
  have hlea := exec_lea_below .rsi hstands3.rbp_eq (show r.slots.context < 2 ^ 31 by omega)
  refine ⟨s3.setReg .rsi (cell (entry.regs .rsp) r.slots.context), ?_, ?_, ?_, ?_, ?_, ?_, ?_⟩
  · rw [enterArgs, execAll_next h1, execAll_next h2, execAll_next h3, execAll_next hlea]
    rfl
  · exact hstands3.of_mem_eq hsize (by simp) (by simp) rfl
  · rw [State.mem_setReg, hmem3, ← hmem1]
    exact huntouched
  · rw [State.regs_setReg, if_neg (by decide), hrdi3]
  · rw [State.regs_setReg, if_pos rfl]
  · rw [State.mem_setReg, hmem3, hword, hrdi1]
  · intro hk
    have hkept := Slots.kept_eq hk
    unfold kept
    rw [State.mem_setReg, hmem3, ← hmem1]
    exact readWord_cell_congr (by omega) fun a _ hhi => hother a (.inl (by omega))

/-- The arguments of the hook behind a program. -/
theorem Stands.exec_exitArgs (h : Stands r entry s) (hsize : r.slots.size ≤ 112) (p : Attached) :
    ∃ t, execAll (exitArgs r p) s = some t ∧ Stands r entry t ∧ t.mem = s.mem ∧
      t.regs .rdi = p.handle.toBitVec ∧ t.regs .rsi = s.regs .rbx ∧
      t.regs .rdx = cell (entry.regs .rsp) r.slots.context := by
  obtain ⟨hargs, hcount, haddress, hcontext, hle, _⟩ := r.slots_order
  obtain ⟨s1, h1, hrdi1, hregs1, hmem1⟩ := exec_loadImm64 s .rdi p.handle
  have hstands1 := h.of_mem_eq hsize (hregs1 .rbp (by decide)) (hregs1 .rsp (by decide)) hmem1
  have hstands2 : Stands r entry (s1.put .wide .rsi (s1.value .wide .rbx)) :=
    hstands1.of_mem_eq hsize (by simp) (by simp) rfl
  have hlea := exec_lea_below .rdx hstands2.rbp_eq (show r.slots.context < 2 ^ 31 by omega)
  refine ⟨(s1.put .wide .rsi (s1.value .wide .rbx)).setReg .rdx
    (cell (entry.regs .rsp) r.slots.context), ?_, ?_, hmem1, ?_, ?_, ?_⟩
  · rw [exitArgs, execAll_next h1, execAll_next rfl, execAll_next hlea]
    rfl
  · exact hstands2.of_mem_eq hsize (by simp) (by simp) rfl
  · simp [hrdi1]
  · simp [hregs1 .rbx (by decide)]
  · simp

/-- The arguments of the hook before a program can be read back. -/
theorem encodable_enterArgs (r : Request) (p : Attached) : Encodable (enterArgs r p) := by
  simp only [enterArgs, encodable_cons, hasOwnEncoding_loadImm64, encodable_nil]
  exact ⟨trivial, (by decide : Reg.rbp.code ≠ 4), trivial, (by decide : Reg.rbp.code ≠ 4), trivial⟩

/-- The arguments of the hook behind a program can be read back. -/
theorem encodable_exitArgs (r : Request) (p : Attached) : Encodable (exitArgs r p) := by
  simp only [exitArgs, encodable_cons, hasOwnEncoding_loadImm64, encodable_nil]
  exact ⟨trivial, trivial, (by decide : Reg.rbp.code ≠ 4), trivial⟩

/-- The hook before a program is called. -/
theorem Setting.goes_enter (hx : Setting x base r entry) (h : Stands r entry s) {rel : Int32}
    {back : List Instr} (hcode : HasCode x.code a (enterArgs r p ++ .call rel :: back))
    (haims : Aims base (a + codeSize (enterArgs r p)) rel (r.enterHook p)) :
    ∃ c, Goes x r entry history a s (a + codeSize (enterArgs r p) + 5) c.after [c] ∧
      IsEnter r entry p c ∧ (r.slots.keepsReturn = true → kept entry c.after = kept entry s) := by
  obtain ⟨_, hcount, haddress, hcontext, hle, _⟩ := r.slots_order
  obtain ⟨t, ht, hstands, huntouched, hrdi, hrsi, hcookie, hkept⟩ := h.exec_enterArgs hx.size_le p
  have hargs : Goes x r entry history a s _ t [] :=
    .plain hcode.left (encodable_enterArgs r p) ht hstands huntouched
  obtain ⟨c, hcall, hcalled⟩ := hx.goes_call history hstands hcode.right haims
  have hword :=
    (hcalled.readWord_eq (n := r.slots.context) (by omega) hx.size_le (.inr (by omega))).1
  refine ⟨c, hargs.after_plain hcall, ?_, fun hk => ?_⟩
  · exact ⟨hcalled.target_eq, (hcalled.regs_eq .rdi (by decide)).trans hrdi,
      (hcalled.regs_eq .rsi (by decide)).trans hrsi, hword.trans hcookie⟩
  · exact (hcalled.kept_eq hx.size_le hk).trans (hkept hk)

/-- The hook behind a program is called. -/
theorem Setting.goes_exit (hx : Setting x base r entry) (h : Stands r entry s) {rel : Int32}
    {back : List Instr} (hcode : HasCode x.code a (exitArgs r p ++ .call rel :: back))
    (haims : Aims base (a + codeSize (exitArgs r p)) rel (r.exitHook p)) :
    ∃ c, Goes x r entry history a s (a + codeSize (exitArgs r p) + 5) c.after [c] ∧
      IsExit r entry p (s.regs .rbx) c ∧
      (r.slots.keepsReturn = true → kept entry c.after = kept entry s) := by
  obtain ⟨t, ht, hstands, hmem, hrdi, hrsi, hrdx⟩ := h.exec_exitArgs hx.size_le p
  have hargs : Goes x r entry history a s _ t [] :=
    .plain hcode.left (encodable_exitArgs r p) ht hstands (.of_eq hmem)
  obtain ⟨c, hcall, hcalled⟩ := hx.goes_call history hstands hcode.right haims
  refine ⟨c, hargs.after_plain hcall, ?_, fun hk => ?_⟩
  · exact ⟨hcalled.target_eq, (hcalled.regs_eq .rdi (by decide)).trans hrdi,
      (hcalled.regs_eq .rsi (by decide)).trans hrsi, (hcalled.regs_eq .rdx (by decide)).trans hrdx⟩
  · exact (hcalled.kept_eq hx.size_le hk).trans (kept_congr hmem)

/-- Keep what was returned, if it is asked for. -/
def keepReturn (keep : Bool) : List Instr :=
  if keep then [.store .double .rbp .rax returnSlot] else []

/-- What was returned is kept, if it is asked for. -/
theorem Setting.goes_keep (hx : Setting x base r entry) (h : Stands r entry s) {keep : Bool}
    (hkeep : keep = true → r.slots.keepsReturn = true)
    (hcode : HasCode x.code a (keepReturn keep)) :
    ∃ t, Goes x r entry history a s (a + codeSize (keepReturn keep)) t [] ∧ t.regs = s.regs ∧
      (r.slots.keepsReturn = true →
        kept entry t = if keep then s.regs .rax else kept entry s) := by
  cases keep with
  | false =>
    exact ⟨s, .plain hcode encodable_nil rfl h (.of_eq rfl), rfl, fun _ => rfl⟩
  | true =>
    obtain ⟨t, ht, hregs, hword, _, huntouched, hstands⟩ :=
      h.store hx.size_le .rax (.inr ⟨rfl, hkeep rfl⟩)
    have henc : Encodable (keepReturn true) :=
      encodable_cons.mpr ⟨(by decide : Reg.rbp.code ≠ 4), encodable_nil⟩
    exact ⟨t, .plain hcode henc (execAll_next ht []) hstands huntouched, hregs, fun _ => hword⟩

/-- Hand the arguments to a program and call it. -/
def programCall (r : Request) (rel : Int32) : List Instr :=
  [.lea .rdi .rbp (below r.slots.args), .call rel]

/-- A program is called. -/
theorem Setting.goes_program (hx : Setting x base r entry) (h : Stands r entry s) {rel : Int32}
    {back : List Instr} (hcode : HasCode x.code a (programCall r rel ++ back))
    (haims : Aims base (a + (Instr.lea .rdi .rbp (below r.slots.args)).size) rel p.entry) :
    ∃ c, Goes x r entry history a s (a + codeSize (programCall r rel)) c.after [c] ∧
      IsRun r entry p c ∧ c.after.regs .rbx = s.regs .rbx ∧
      (r.slots.keepsReturn = true → kept entry c.after = kept entry s) := by
  obtain ⟨_, hcount, haddress, hcontext, hle, _⟩ := r.slots_order
  have hsize := hx.size_le
  have hlea := exec_lea_below .rdi h.rbp_eq (show r.slots.args < 2 ^ 31 by omega)
  have hstands : Stands r entry (s.setReg .rdi (cell (entry.regs .rsp) r.slots.args)) :=
    h.of_mem_eq hsize (by simp) (by simp) rfl
  have hfront : HasCode x.code a ([.lea .rdi .rbp (below r.slots.args)] ++ .call rel :: back) :=
    hcode
  have hone : codeSize [Instr.lea .rdi .rbp (below r.slots.args)] =
      (Instr.lea .rdi .rbp (below r.slots.args)).size := by
    rw [codeSize_cons, codeSize_nil, Nat.add_zero]
  have hargs : Goes x r entry history a s _ _ [] :=
    .plain hfront.left (encodable_cons.mpr ⟨(by decide : Reg.rbp.code ≠ 4), encodable_nil⟩)
      (execAll_next hlea []) hstands (.of_eq rfl)
  obtain ⟨c, hcall, hcalled⟩ :=
    hx.goes_call history hstands hfront.right (by rw [hone]; exact haims)
  have hword := fun n hn hout => (hcalled.readWord_eq (n := n) hn hsize hout).1
  have hstop : a + codeSize [Instr.lea .rdi .rbp (below r.slots.args)] + 5 =
      a + codeSize (programCall r rel) := by
    rw [programCall, codeSize_cons, codeSize_cons, codeSize_cons, codeSize_nil]
    rfl
  refine ⟨c, hstop ▸ hargs.after_plain hcall, ?_, hcalled.rbx_eq, hcalled.kept_eq hsize⟩
  refine ⟨hcalled.target_eq, (hcalled.regs_eq .rdi (by decide)).trans (by simp), ?_,
    fun hstored => ?_⟩
  · exact (hword _ (by omega) (.inr (by omega))).trans hstands.count_eq
  · exact (hword _ (by omega) (.inr (by omega))).trans (hstands.address_eq hstored)

/-- Keep the answer of the hook before a program, and test it. -/
def testAnswer : List Instr := [.mov .wide .rbx .rax, .test .wide .rax .rax]

/-- The code for one program: the hook before it, a branch over the program, the program, and the
hook behind it. -/
structure InvokeParts (r : Request) (base : Option Address) (offset : Nat) (p : Attached)
    (keep : Bool) (code : List Instr) (enter run exit : Int32) (skip : SignedField) : Prop where
  /-- The parts in a row. -/
  code_eq : code = enterArgs r p ++ .call enter :: (testAnswer ++ .jcc .equal skip ::
    (programCall r run ++ (keepReturn keep ++ (exitArgs r p ++ [.call exit]))))
  /-- The branch is short. -/
  size_skip : (Instr.jcc .equal skip).size = 2
  /-- The branch leads behind the program. -/
  skip_eq : skip.value = (codeSize (programCall r run) + codeSize (keepReturn keep) : Nat)
  /-- The first call leads to the hook before the program. -/
  enter_aims : Leads base (offset + codeSize (enterArgs r p)) enter (r.enterHook p)
  /-- The second call leads to the program. -/
  run_aims : Leads base (offset + codeSize (enterArgs r p) + 5 + codeSize testAnswer + 2 +
    (Instr.lea .rdi .rbp (below r.slots.args)).size) run p.entry
  /-- The third call leads to the hook behind the program. -/
  exit_aims : Leads base (offset + codeSize (enterArgs r p) + 5 + codeSize testAnswer + 2 +
    codeSize (programCall r run) + codeSize (keepReturn keep) + codeSize (exitArgs r p)) exit
    (r.exitHook p)

namespace InvokeParts

variable {base : Option Address} {offset : Nat} {keep : Bool} {code : List Instr}
  {enter run exit : Int32} {skip : SignedField}

/-- Where the code for one program ends. -/
theorem stop_eq (h : InvokeParts r base offset p keep code enter run exit skip) :
    offset + codeSize code = offset + codeSize (enterArgs r p) + 5 + codeSize testAnswer + 2 +
      codeSize (programCall r run) + codeSize (keepReturn keep) + codeSize (exitArgs r p) + 5 := by
  have hcall : ∀ rel, (Instr.call rel).size = 5 := fun _ => rfl
  rw [h.code_eq]
  simp only [codeSize_append, codeSize_cons, codeSize_nil, hcall, h.size_skip]
  omega

/-- Where the branch leads. -/
theorem skip_target (h : InvokeParts r base offset p keep code enter run exit skip) :
    ((offset + codeSize (enterArgs r p) + 5 + codeSize testAnswer +
      (Instr.jcc .equal skip).size : Nat) : Int) + skip.value =
    (offset + codeSize (enterArgs r p) + 5 + codeSize testAnswer + 2 +
      codeSize (programCall r run) + codeSize (keepReturn keep) : Nat) := by
  rw [h.size_skip, h.skip_eq]
  omega

end InvokeParts

/-- The code for one program, with its parts by name. -/
theorem invoke_eq (r : Request) (base : Option Address) (offset : Nat) (p : Attached)
    (keep : Bool) :
    invoke r base offset p keep = (do
      let context : Instr := .lea .rdi .rbp (below r.slots.args)
      let enter ← callFrom base (offset + codeSize (enterArgs r p)) (r.enterHook p)
      let test := enterArgs r p ++ enter :: testAnswer
      let run ← callFrom base (offset + codeSize test + 2 + context.size) p.entry
      let body := [context, run] ++ keepReturn keep
      if fitsInt8 (codeSize body) then
        let front := test ++ [.jcc .equal (.byte (Int8.ofInt (codeSize body)))] ++ body ++
          exitArgs r p
        let exit ← callFrom base (offset + codeSize front) (r.exitHook p)
        return front ++ [exit]
      else defect .trampolineSkip) :=
  rfl

/-- The code for one program has these parts. -/
theorem invoke_eq_ok {base : Option Address} {offset : Nat} {keep : Bool} {code : List Instr}
    (h : invoke r base offset p keep = .ok code) :
    ∃ enter run exit skip, InvokeParts r base offset p keep code enter run exit skip := by
  rw [invoke_eq] at h
  obtain ⟨i1, h1, h⟩ := bind_eq_ok.mp h
  obtain ⟨enter, rfl, henter⟩ := callFrom_leads h1
  obtain ⟨i2, h2, h⟩ := bind_eq_ok.mp h
  obtain ⟨run, rfl, hrun⟩ := callFrom_leads h2
  dsimp only at h
  split at h
  · rename_i hfits
    have hfits := fitsInt8_iff.mp hfits
    obtain ⟨i3, h3, h⟩ := bind_eq_ok.mp h
    obtain ⟨exit, rfl, hexit⟩ := callFrom_leads h3
    obtain rfl := pure_eq_ok.mp h
    have hcall : ∀ rel, (Instr.call rel).size = 5 := fun _ => rfl
    have hshort : ∀ rel, (Instr.jcc .equal (.byte rel)).size = 2 := fun _ => rfl
    have hbody : codeSize ([.lea .rdi .rbp (below r.slots.args), .call run] ++ keepReturn keep) =
        codeSize (programCall r run) + codeSize (keepReturn keep) := codeSize_append _ _
    rw [hbody] at hfits
    refine ⟨enter, run, exit, .byte (Int8.ofInt (codeSize
      ([.lea .rdi .rbp (below r.slots.args), .call run] ++ keepReturn keep))), ?_, hshort _, ?_,
      henter, ?_, ?_⟩
    · simp only [programCall, List.append_assoc, List.cons_append, List.nil_append]
    · rw [hbody]
      exact Int8.toInt_ofInt_of_le (by omega) (by omega)
    · simp only [codeSize_append, codeSize_cons, hcall, ← Nat.add_assoc] at hrun
      exact hrun
    · simp only [codeSize_append, codeSize_cons, codeSize_nil, hcall, hshort, programCall,
        ← Nat.add_assoc, Nat.add_zero] at hexit ⊢
      exact hexit
  · exact absurd h (defect_ne_ok _ _)

/-- The answer of a hook is kept and tested. -/
theorem Setting.goes_test (hx : Setting x base r entry) (h : Stands r entry s) {back : List Instr}
    (hcode : HasCode x.code a (testAnswer ++ back)) :
    ∃ t f, Goes x r entry history a s (a + codeSize testAnswer) t [] ∧
      t.regs .rbx = s.regs .rax ∧ t.mem = s.mem ∧ t.flags = some f ∧
      Cond.equal.holds f = decide (s.regs .rax = 0) := by
  have hstands : Stands r entry ((s.put .wide .rbx (s.value .wide .rax)).setFlags
      (some (.ofLogic (s.regs .rax)))) :=
    h.of_mem_eq hx.size_le (by simp) (by simp) rfl
  have hexec : execAll testAnswer s = some ((s.put .wide .rbx (s.value .wide .rax)).setFlags
      (some (.ofLogic (s.regs .rax)))) := by
    rw [testAnswer, execAll_next rfl, execAll_next rfl]
    simp [execAll, State.value, BitVec.and_self]
  refine ⟨_, _, .plain hcode.left ?_ hexec hstands (.of_eq rfl), by simp, rfl, rfl, ?_⟩
  · exact encodable_cons.mpr ⟨trivial, encodable_cons.mpr ⟨trivial, encodable_nil⟩⟩
  · exact (Bool.beq_eq_decide_eq _ _)

/-- One program is run between its hooks, unless the first of them refuses it. -/
theorem Setting.goes_invoke (hx : Setting x base r entry) (h : Stands r entry s) {keep : Bool}
    (hkeep : keep = true → r.slots.keepsReturn = true) {code : List Instr}
    (hinvoke : invoke r (some base) a p keep = .ok code) (hcode : HasCode x.code a code) :
    ∃ t calls result, Goes x r entry history a s (a + codeSize code) t calls ∧
      Invoked r entry p calls result ∧
      (r.slots.keepsReturn = true →
        kept entry t = if keep then result.getD (kept entry s) else kept entry s) := by
  obtain ⟨enter, run, exit, skip, hparts⟩ := invoke_eq_ok hinvoke
  have hstop := hparts.stop_eq
  rw [hparts.code_eq] at hcode
  have htest : HasCode x.code (a + codeSize (enterArgs r p) + 5) _ := hcode.right.tail
  have hbody := htest.right.tail
  rw [hparts.size_skip] at hbody
  obtain ⟨c1, hgo1, henter, hkept1⟩ := hx.goes_enter history h hcode hparts.enter_aims
  obtain ⟨u, f, hgo2, hrbx, hmem, hflags, hholds⟩ :=
    hx.goes_test (history ++ [c1]) hgo1.stands htest
  have hkept2 : r.slots.keepsReturn = true → kept entry u = kept entry s := fun hk =>
    (kept_congr hmem).trans (hkept1 hk)
  by_cases hzero : c1.value = 0
  · -- the branch leads to the hook behind the program
    have hjump : Goes x r entry (history ++ [c1]) _ u _ u [] :=
      .jump htest.right hgo2.stands hflags (by rw [hholds]; exact decide_eq_true hzero)
        hparts.skip_target
    obtain ⟨c2, hgo3, hexit, hkept3⟩ :=
      hx.goes_exit (history ++ [c1]) hgo2.stands hbody.right.right hparts.exit_aims
    rw [hrbx] at hexit
    refine ⟨c2.after, [c1] ++ [c2], none, ?_, .refused henter hzero hexit, fun hk => ?_⟩
    · rw [hstop]
      exact hgo1.trans (hgo2.after_plain (hjump.after_plain hgo3))
    · rw [hkept3 hk, hkept2 hk, Option.getD_none, ite_self]
  · have hpass : Goes x r entry (history ++ [c1]) _ u _ u [] :=
      .pass htest.right hgo2.stands hflags (by rw [hholds]; exact decide_eq_false hzero)
    rw [hparts.size_skip] at hpass
    obtain ⟨c2, hgo3, hrun, hrbx2, hkept3⟩ :=
      hx.goes_program (history ++ [c1]) hgo2.stands hbody hparts.run_aims
    obtain ⟨v, hgo4, hregs, hkept4⟩ :=
      hx.goes_keep (history ++ [c1] ++ [c2]) hgo3.stands hkeep hbody.right.left
    obtain ⟨c3, hgo5, hexit, hkept5⟩ :=
      hx.goes_exit (history ++ [c1] ++ [c2]) hgo4.stands hbody.right.right hparts.exit_aims
    rw [hregs, hrbx2, hrbx] at hexit
    refine ⟨c3.after, [c1] ++ ([c2] ++ [c3]), some c2.value, ?_, .ran henter hzero hrun hexit,
      fun hk => ?_⟩
    · rw [hstop]
      exact hgo1.trans (hgo2.after_plain (hpass.after_plain (hgo3.trans (hgo4.after_plain hgo5))))
    · rw [hkept5 hk, hkept4 hk, hkept3 hk, hkept2 hk]
      rfl

/-- Programs are run one behind the other. -/
theorem Setting.goes_invokeAll (hx : Setting x base r entry) (h : Stands r entry s) {keep : Bool}
    (hkeep : keep = true → r.slots.keepsReturn = true) {programs : List Attached}
    {code : List Instr}
    (hinvoke : invokeAll r (some base) keep a programs = .ok code) (hcode : HasCode x.code a code) :
    ∃ t calls results, Goes x r entry history a s (a + codeSize code) t calls ∧
      InvokedAll r entry programs calls results ∧
      (r.slots.keepsReturn = true →
        kept entry t = if keep then lastResult (kept entry s) results else kept entry s) := by
  induction programs generalizing history a s code with
  | nil =>
    cases hinvoke
    exact ⟨s, [], [], .plain hcode encodable_nil rfl h (.of_eq rfl), .nil,
      fun _ => (ite_self _).symm⟩
  | cons p rest ih =>
    obtain ⟨first, hfirst, hinvoke⟩ := bind_eq_ok.mp hinvoke
    obtain ⟨tail, htail, hinvoke⟩ := bind_eq_ok.mp hinvoke
    obtain rfl := pure_eq_ok.mp hinvoke
    obtain ⟨u, calls, result, hgo1, hcalls, hkept1⟩ :=
      hx.goes_invoke history h hkeep hfirst hcode.left
    obtain ⟨t, calls', results, hgo2, hcalls', hkept2⟩ :=
      ih (history ++ calls) hgo1.stands htail hcode.right
    refine ⟨t, calls ++ calls', result :: results, ?_, .cons hcalls hcalls', fun hk => ?_⟩
    · rw [codeSize_append, ← Nat.add_assoc]
      exact hgo1.trans hgo2
    · rw [hkept2 hk, hkept1 hk]
      split
      · rw [lastResult, lastResult, List.foldl_cons]
      · rfl

/-- Compare the return value with zero. -/
def testReturn : Instr := .cmpMemImm .wide .rbp returnSlot 0

/-- The return value is compared with zero. -/
theorem Setting.goes_testReturn (hx : Setting x base r entry) (h : Stands r entry s)
    {back : List Instr} (hcode : HasCode x.code a (testReturn :: back)) :
    ∃ t f, Goes x r entry history a s (a + testReturn.size) t [] ∧ t.mem = s.mem ∧
      t.flags = some f ∧ Cond.notEqual.holds f = decide (kept entry s ≠ 0) := by
  have hload := load_below .double h.rbp_eq (show 8 < 2 ^ 31 by decide)
    fun a _ hhi => h.mapped a (by omega)
  have hexec : testReturn.exec s = some (s.setFlags (some (.ofSub (kept entry s) 0)), .next) := by
    rw [testReturn, Instr.exec, ← below_eight]
    change (s.load (s.address .rbp (below 8).value) .double).bind _ = _
    rw [hload]
    rfl
  have hstands : Stands r entry (s.setFlags (some (.ofSub (kept entry s) 0))) :=
    h.of_mem_eq hx.size_le rfl rfl rfl
  refine ⟨_, _, ⟨.of_reaches (.next hcode (by decide : Reg.rbp.code ≠ 4) hexec), hstands,
    .of_eq rfl⟩, rfl, rfl, ?_⟩
  have hzero := @X64.Flags.zero_ofSub .wide (kept entry s) 0
  rw [Cond.holds, hzero]
  exact decide_not.symm

/-- The code for the replacing programs of a list, by its first program. -/
theorem vetoes_cons_eq_ok {base : Option Address} {rest : List Attached} {vs : List Veto}
    (h : vetoes r base a (p :: rest) = .ok vs) :
    ∃ run tail, invoke r base a p true = .ok run ∧
      vetoes r base (a + codeSize run + testReturn.size + vetoSize) rest = .ok tail ∧
      vs = ⟨run ++ [testReturn], a + codeSize run + testReturn.size⟩ :: tail := by
  obtain ⟨run, hrun, h⟩ := bind_eq_ok.mp h
  obtain ⟨tail, htail, h⟩ := bind_eq_ok.mp h
  have hbranch : a + codeSize (run ++ [testReturn]) = a + codeSize run + testReturn.size := by
    rw [codeSize_append, codeSize_cons, codeSize_nil, Nat.add_zero, Nat.add_assoc]
  refine ⟨run, tail, hrun, ?_, ?_⟩
  · rw [← hbranch]
    exact htail
  · rw [← hbranch]
    exact (pure_eq_ok.mp h).symm

/-- The size of replacing programs, by the first of them. -/
theorem vetoesSize_cons (run : List Instr) (branch : Nat) (tail : List Veto) :
    vetoesSize (⟨run ++ [testReturn], branch⟩ :: tail) =
      codeSize run + testReturn.size + vetoSize + vetoesSize tail := by
  rw [vetoesSize, List.map_cons, List.foldr_cons, codeSize_append, codeSize_cons, codeSize_nil]
  rfl

/-- The replacing programs are run until one of them answers. It leads to the target of the
branches. -/
theorem Setting.goes_vetoes (hx : Setting x base r entry) (h : Stands r entry s)
    (hk : r.slots.keepsReturn = true) (hzero : kept entry s = 0) {programs : List Attached}
    {vs : List Veto} (hvetoes : vetoes r (some base) a programs = .ok vs) {target : Nat}
    (hle : a + vetoesSize vs ≤ target) (hlt : target < 2 ^ 31)
    (hcode : HasCode x.code a (vs.flatMap (Veto.instrs · target))) :
    ∃ t calls veto, Goes x r entry history a s
        (if veto.isSome then target else a + vetoesSize vs) t calls ∧
      Replaced r entry programs calls veto ∧ kept entry t = veto.getD 0 := by
  induction programs generalizing history a s vs with
  | nil =>
    cases hvetoes
    exact ⟨s, [], none, .plain hcode encodable_nil rfl h (.of_eq rfl), .nil, hzero⟩
  | cons p rest ih =>
    obtain ⟨run, tail, hrun, htail, rfl⟩ := vetoes_cons_eq_ok hvetoes
    rw [vetoesSize_cons] at hle ⊢
    simp only [List.flatMap_cons, Veto.instrs, List.append_assoc] at hcode
    have hbranch := hcode.right.tail
    obtain ⟨u, calls, result, hgo1, hcalls, hkept1⟩ :=
      hx.goes_invoke history h (fun _ => hk) hrun hcode.left
    have hkept1 : kept entry u = result.getD 0 := by
      rw [hkept1 hk, if_pos rfl, hzero]
    obtain ⟨v, f, hgo2, hmem, hflags, hholds⟩ :=
      hx.goes_testReturn (history ++ calls) hgo1.stands hcode.right
    have hkept2 : kept entry v = result.getD 0 := (kept_congr hmem).trans hkept1
    rw [hkept1] at hholds
    by_cases hresult : result.getD 0 = 0
    · -- the branch is not taken, and the next program finds zero again
      have hpass : Goes x r entry (history ++ calls) _ v _ v [] :=
        .pass hbranch hgo2.stands hflags (by
          rw [hholds]
          exact decide_eq_false (not_not_intro hresult))
      obtain ⟨t, calls', veto, hgo3, hcalls', hkept3⟩ := ih (history ++ calls) hgo2.stands
        (hkept2.trans hresult) htail (by omega) hbranch.tail
      refine ⟨t, calls ++ calls', veto, ?_, .pass hcalls hresult hcalls', hkept3⟩
      rw [← Nat.add_assoc, ← Nat.add_assoc, ← Nat.add_assoc]
      exact hgo1.trans (hgo2.after_plain (hpass.after_plain hgo3))
    · have hjump : Goes x r entry (history ++ calls) _ v target v [] :=
        .jump hbranch hgo2.stands hflags (by rw [hholds]; exact decide_eq_true hresult) (by
          have hsize : ∀ rel, (Instr.jcc .notEqual (.dword rel)).size = vetoSize := fun _ => rfl
          rw [hsize, SignedField.value, Int32.toInt_ofInt_of_le (by omega) (by omega)]
          omega)
      cases result with
      | none => exact absurd rfl hresult
      | some value =>
        exact ⟨v, calls, some value, hgo1.then_plain (hgo2.after_plain hjump), .veto hcalls hresult,
          hkept2⟩

end Pieces

end NativeForge.Trampoline
