import NativeForge.Proofs.RegisterWrites
import NativeForge.Proofs.TrampolineRelocation

/-!
# Argument registers at the return of a trampoline

A trampoline that has to restore the argument registers reloads them behind all its programs. What
follows is the outer hook behind everything, if the wrapped function is called, and the code that
takes the frame down. The latter leaves the argument registers alone. The hook does not: it is a
call, and its own argument is loaded into the first of them. So the registers are those of the slots
at the return exactly if there is no such hook.
-/

namespace NativeForge.Trampoline

open X64 Target

/-- The instruction calls nothing and writes none of the argument registers. -/
structure SparesArguments (i : Instr) : Prop where
  /-- It is no call. -/
  call_eq : callField? i = none
  /-- It writes other registers only. -/
  not_written : ∀ reg ∈ argRegisters, reg ∉ i.written

/-- Taking the frame down leaves the argument registers alone. -/
theorem spares_takeDown (r : Request) : ∀ i ∈ takeDown r, SparesArguments i := by
  have hload : ∀ i ∈ loadReturn r, ∀ reg ∈ argRegisters, reg ∉ i.written := by
    unfold loadReturn
    split <;> decide
  have hpop : ∀ i ∈ [Instr.pop .rbx, .leave], ∀ reg ∈ argRegisters, reg ∉ i.written := by decide
  have hdrop : ∀ i ∈ dropReturn r, ∀ reg ∈ argRegisters, reg ∉ i.written := by
    unfold dropReturn
    split <;> decide
  have hplain := plain_closing r
  rw [closing_eq] at hplain
  intro i hi
  refine ⟨((plain_append.mp hplain).1 i hi).call_eq, ?_⟩
  rw [takeDown] at hi
  rcases List.mem_append.mp hi with hi | hi
  · exact hload i hi
  · rcases List.mem_append.mp hi with hi | hi
    · exact hpop i hi
    · exact hdrop i hi

/-- The reload of the argument registers and everything behind it. -/
theorem Emitted.instrs_restore {r : Request} {base : Option Address} {code : Code} {p : Parts}
    (h : Emitted r base code p) (hrestore : r.flags.restoreRegisters = true) :
    ∃ front, code.instrs =
      front ++ (restoreArgs r ++ ((p.finishes ++ takeDown r) ++ [.ret])) := by
  have hrestoring : restoring r = restoreArgs r := if_pos hrestore
  refine ⟨p.front r ++ (nops p.gap ++ p.exits), ?_⟩
  rw [h.instrs_split, Parts.behind, hrestoring, closing_eq]
  simp only [List.append_assoc]

/-- What a run leaves at the return of a trampoline: each argument register holds what is in its
slot, where the calls on the way have left the arguments that the trampoline had stored. -/
def ReturnsArguments (r : Request) (x : Linked) (entry : State) : Prop :=
  ∃ calls opened offset t, x.Makes [] 0 entry offset t calls ∧
    fetch x.code offset = some (.ret, x.code.length) ∧ Opened r entry opened ∧
    Threads r.slots (entry.regs .rsp) opened calls t.mem ∧
    ∀ c ∈ argCells r, t.regs c.reg = c.value (entry.regs .rsp) t.mem

/-- Without an outer hook, the registers that are reloaded are still there at the return. -/
theorem Emitted.returns_arguments {r : Request} {base : Address} {code : Code} {p : Parts}
    {entry : State} {callees : Callees} (h : Emitted r (some base) code p)
    (hcheck : r.check = .ok ()) (hrestore : r.flags.restoreRegisters = true)
    (hcall : r.flags.callWrapped = false) (hready : Ready r entry)
    (hnormal : Normal r.slots (entry.regs .rsp) callees) :
    ReturnsArguments r ⟨code.bytes, base.toBitVec, callees⟩ entry := by
  have hreplace := r.replace_eq_nil hcheck hcall
  have hperforms : Performs r ⟨code.bytes, base.toBitVec, callees⟩ entry :=
    h.performs hcheck (.inl hreplace) ⟨rfl, Request.slots_size_le (r.check_args hcheck), hnormal⟩
      rfl hready
  obtain ⟨calls, value, opened, offset, t, hmakes, hret, _, hopened, hthreads, hreturning⟩ :=
    hperforms
  exact ⟨calls, opened, offset, t, hmakes, hret, hopened, hthreads,
    hreturning.args_eq hrestore hcall⟩

/-- Between the reload of the argument registers and the return no instruction is a call or writes
an argument register if and only if the wrapped function is not called. Then the whole trampoline
returns with each argument register as it is in its slot. -/
theorem arguments_restored_iff {r : Request} {base : Option Address} {code : Code}
    (h : emit r base = .ok code) (hrestore : r.flags.restoreRegisters = true) :
    ∃ front hook,
      code.instrs = front ++ (restoreArgs r ++ ((hook ++ takeDown r) ++ [.ret])) ∧
      (if r.flags.callWrapped then ∃ rel, hook = [loadImm64 .rdi r.handle, .call rel]
        else hook = []) ∧
      ((∀ i ∈ hook ++ takeDown r, SparesArguments i) ↔ r.flags.callWrapped = false) ∧
      (r.flags.callWrapped = false →
        (∀ s t, execAll (hook ++ takeDown r) s = some t →
          ∀ reg ∈ argRegisters, t.regs reg = s.regs reg) ∧
        ∀ address entry callees, base = some address → Ready r entry →
          Normal r.slots (entry.regs .rsp) callees →
          ReturnsArguments r ⟨code.bytes, address.toBitVec, callees⟩ entry) := by
  obtain ⟨hcheck, p, hp⟩ := emit_eq_ok h
  obtain ⟨front, hinstrs⟩ := hp.instrs_restore hrestore
  have hhook := outer_eq_ok hp.finishes_eq
  have hspares : (∀ i ∈ p.finishes ++ takeDown r, SparesArguments i) ↔
      r.flags.callWrapped = false := by
    cases hcall : r.flags.callWrapped with
    | true =>
      rw [hcall] at hhook
      obtain ⟨rel, hhook⟩ := hhook
      rw [hhook]
      refine ⟨fun hall => ?_, fun hno => by cases hno⟩
      cases (hall (.call rel) (by simp)).call_eq
    | false =>
      rw [hcall] at hhook
      rw [show p.finishes = [] from hhook, List.nil_append]
      exact iff_of_true (spares_takeDown r) rfl
  refine ⟨front, p.finishes, hinstrs, hhook, hspares, fun hcall => ⟨?_, ?_⟩⟩
  · intro s t hexec reg hreg
    exact regs_of_execAll hexec fun i hi => (hspares.mpr hcall i hi).not_written reg hreg
  · rintro address entry callees rfl hready hnormal
    exact hp.returns_arguments hcheck hrestore hcall hready hnormal

/-- The instruction at which a run of so many steps stands, and each argument register beside what
is in its slot. -/
def standing (r : Request) (x : Linked) (count : Nat) (entry : State) :
    Option (Option Instr × List (BitVec 64 × BitVec 64)) :=
  (x.run count ⟨0, entry, []⟩).map fun m => ((fetch x.code m.offset).map Prod.fst,
    (argCells r).map fun c => (m.state.regs c.reg, c.value (entry.regs .rsp) m.state.mem))

/-- A request that runs programs around a function which it does not call. -/
def tracingRequest : Request where
  args := [8, 4, 1]
  flags := { restoreRegisters := true, storeAddress := true }
  entry := [⟨0x11, 0x401000, 0xC1, true⟩]
  exit := [⟨0x55, 0x405000, 0xC5, false⟩]
  hooks := ⟨0x500000, 0x500100, 0x500200, 0x500300, 0x500400, 0x500500⟩
  wrapped := 0x600000
  handle := 0xFF

/-- The trampoline of `tracingRequest` restores its arguments: behind the reload nothing calls or
writes an argument register, and a run of it reaches the return with the registers as in the
slots. -/
theorem arguments_restored_tracingRequest :
    ∃ code, emit tracingRequest (some 0x400000) = .ok code ∧
      tracingRequest.flags.restoreRegisters = true ∧
      standing tracingRequest ⟨code.bytes, 0x400000, answering secondAnswers⟩ 45 wideCaller =
        some (some .ret, [(0xABCDEF, 0xABCDEF), (0xABCDEF, 0xABCDEF), (0xEF, 0xEF)]) ∧
      ReturnsArguments tracingRequest ⟨code.bytes, 0x400000, answering secondAnswers⟩ wideCaller ∧
      ∃ front hook,
        code.instrs = front ++ (restoreArgs tracingRequest ++
          ((hook ++ takeDown tracingRequest) ++ [.ret])) ∧
        ∀ i ∈ hook ++ takeDown tracingRequest, SparesArguments i := by
  have hemit : ((emit tracingRequest (some 0x400000)).toOption.map fun code =>
      standing tracingRequest ⟨code.bytes, 0x400000, answering secondAnswers⟩ 45 wideCaller) =
      some (some (some .ret, [(0xABCDEF, 0xABCDEF), (0xABCDEF, 0xABCDEF), (0xEF, 0xEF)])) := by
    decide +kernel
  obtain ⟨code, hok, hrun⟩ := Option.map_eq_some_iff.mp hemit
  have hok := toOption_eq_some.mp hok
  obtain ⟨front, hook, hinstrs, _, hspares, hreturns⟩ := arguments_restored_iff hok rfl
  exact ⟨code, hok, rfl, hrun, (hreturns rfl).2 0x400000 wideCaller (answering secondAnswers) rfl
    ⟨fun _ _ => rfl, fun _ _ _ => rfl⟩ (normal_answering _ _ _), front, hook, hinstrs,
    hspares.mpr rfl⟩

/-- A request that calls a function with one argument and has no programs. -/
def hookedRequest : Request where
  args := [8]
  flags := { restoreRegisters := true, callWrapped := true }
  hooks := ⟨0x500000, 0x500100, 0x500200, 0x500300, 0x500400, 0x500500⟩
  wrapped := 0x600000
  handle := 0x42

/-- The trampoline of `hookedRequest` returns with its own identity in the first argument register,
where the slot of the argument holds another number. -/
theorem argument_lost_hookedRequest :
    ∃ code, emit hookedRequest (some 0x400000) = .ok code ∧
      hookedRequest.flags.restoreRegisters = true ∧
      standing hookedRequest ⟨code.bytes, 0x400000, answering secondAnswers⟩ 19 wideCaller =
        some (some .ret, [(0x42, 0xABCDEF)]) := by
  have hemit : ((emit hookedRequest (some 0x400000)).toOption.map fun code =>
      standing hookedRequest ⟨code.bytes, 0x400000, answering secondAnswers⟩ 19 wideCaller) =
      some (some (some .ret, [(0x42, 0xABCDEF)])) := by
    decide +kernel
  obtain ⟨code, hok, hrun⟩ := Option.map_eq_some_iff.mp hemit
  exact ⟨code, toOption_eq_some.mp hok, rfl, hrun⟩

end NativeForge.Trampoline
