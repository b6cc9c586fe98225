import NativeForge.Proofs.CallingCode

/-!
# Control paths through encoded code

A control path goes through the bytes of a piece of code from instruction to instruction. A branch
may go either way, and a call comes back, whatever the state of the processor is; so every run is on
a path. Code in a row has one path through it, and a branch over a part of it adds one. What holds of
the instructions on every path up to an offset is put together from the parts in front of it.
-/

namespace NativeForge.X64

/-- How far an instruction jumps from its end. -/
def Instr.distance? : Instr → Option Int
  | .jmp rel | .jcc _ rel => some rel.value
  | _ => none

/-- The processor may go on right behind the instruction; a call comes back there. -/
def Instr.passesOn : Instr → Bool
  | .jmp _ | .jmpReg _ | .ret => false
  | _ => true

/-- Where control may go from an instruction, whatever the state is. -/
inductive FlowsTo (code : List UInt8) (a : Nat) (i : Instr) (b : Nat) : Prop
  | next (hfetch : fetch code a = some (i, b)) (hon : i.passesOn = true)
  | jump {stop : Nat} {distance : Int} (hfetch : fetch code a = some (i, stop))
      (hdistance : i.distance? = some distance) (htarget : (stop : Int) + distance = b)

/-- A path of control from one offset to another, with the instructions on it. -/
inductive Path (code : List UInt8) : Nat → List Instr → Nat → Prop
  | nil {a : Nat} : Path code a [] a
  | cons {a b c : Nat} {i : Instr} {trace : List Instr} (hfirst : FlowsTo code a i b)
      (hrest : Path code b trace c) : Path code a (i :: trace) c

section Runs

/-- What an instruction may do with control. -/
def Instr.Allows (i : Instr) : Control → Prop
  | .next | .call _ => i.passesOn = true
  | .jump distance => i.distance? = some distance
  | .goto _ | .ret => True

/-- An instruction does with control what it may do. -/
theorem Instr.allows_of_exec {i : Instr} {s t : State} {control : Control}
    (h : i.exec s = some (t, control)) : i.Allows control := by
  cases i with
  | load | loadSigned | loadIndexed | store | storeImm | locked | shiftOne | shiftImm | shiftCount
  | div | cmpMem | cmpMemImm | push | pop | leave =>
    obtain ⟨_, _, h⟩ := Option.bind_eq_some_iff.mp h
    cases h
    rfl
  | jcc cond rel =>
    obtain ⟨f, _, h⟩ := Option.bind_eq_some_iff.mp h
    cases h
    split <;> rfl
  | ret | jmpReg =>
    cases h
    trivial
  | _ =>
    cases h
    rfl

/-- A step of the processor follows control. -/
theorem Linked.flowsTo_of_step {x : Linked} {m n : Moment} (h : x.step m = some n) :
    ∃ i, FlowsTo x.code m.offset i n.offset := by
  obtain ⟨⟨i, stop⟩, hfetch, h⟩ := Option.bind_eq_some_iff.mp h
  obtain ⟨⟨t, control⟩, hexec, h⟩ := Option.bind_eq_some_iff.mp h
  have hallows := i.allows_of_exec hexec
  refine ⟨i, ?_⟩
  cases control with
  | next =>
    cases h
    exact .next hfetch hallows
  | jump distance =>
    dsimp only [Linked.follow] at h
    split at h
    · cases h
      exact .jump hfetch hallows (by dsimp only; omega)
    · cases h
  | call distance =>
    obtain ⟨entered, _, h⟩ := Option.bind_eq_some_iff.mp h
    cases h
    exact .next hfetch hallows
  | goto | ret => cases h

/-- Every run of the processor is on a path. -/
theorem Linked.path_of_run {x : Linked} {count : Nat} {m n : Moment}
    (h : x.run count m = some n) : ∃ trace, Path x.code m.offset trace n.offset := by
  induction count generalizing m with
  | zero =>
    cases h
    exact ⟨[], .nil⟩
  | succ count ih =>
    obtain ⟨k, hstep, h⟩ := Option.bind_eq_some_iff.mp h
    obtain ⟨i, hfirst⟩ := Linked.flowsTo_of_step hstep
    obtain ⟨trace, hrest⟩ := ih h
    exact ⟨i :: trace, .cons hfirst hrest⟩

end Runs

section Paths

variable {code : List UInt8} {a b c : Nat} {i : Instr} {instrs back front trace : List Instr}

/-- Paths go on one behind the other. -/
theorem Path.append (h1 : Path code a front b) (h2 : Path code b back c) :
    Path code a (front ++ back) c := by
  induction h1 with
  | nil => exact h2
  | cons hfirst _ ih => exact .cons hfirst (ih h2)

/-- Instructions in a row are a path, if control goes on behind each of them. -/
theorem Path.straight (h : HasCode code a instrs) (hi : Encodable instrs)
    (hon : ∀ i ∈ instrs, i.passesOn = true) : Path code a instrs (a + codeSize instrs) := by
  induction instrs generalizing a with
  | nil => exact .nil
  | cons i rest ih =>
    obtain ⟨hown, hrest⟩ := encodable_cons.mp hi
    obtain ⟨hone, hon⟩ := List.forall_mem_cons.mp hon
    rw [codeSize_cons, ← Nat.add_assoc]
    exact .cons (.next (h.fetch_eq hown) hone) (ih h.tail hrest hon)

/-- An encoded instruction that does not jump leads behind itself. -/
theorem FlowsTo.eq_next {j : Instr} (h : FlowsTo code a j b) (hcode : HasCode code a (i :: back))
    (hown : i.HasOwnEncoding) (hplain : i.distance? = none) :
    j = i ∧ b = a + i.size ∧ i.passesOn = true := by
  have hfetched := hcode.fetch_eq hown
  cases h with
  | next hfetch hon =>
    cases hfetched.symm.trans hfetch
    exact ⟨rfl, rfl, hon⟩
  | jump hfetch hdistance _ =>
    cases hfetched.symm.trans hfetch
    rw [hplain] at hdistance
    cases hdistance

/-- From instructions in a row with a return at their end, control does not come back. -/
theorem Path.forward (h : HasCode code a (instrs ++ [.ret])) (hi : Encodable instrs)
    (hplain : ∀ i ∈ instrs, i.distance? = none) (hpath : Path code a trace c) :
    trace = [] ∨ a < c := by
  induction instrs generalizing a trace with
  | nil =>
    cases hpath with
    | nil => exact .inl rfl
    | cons hfirst _ => cases (hfirst.eq_next h trivial rfl).2.2
  | cons i rest ih =>
    obtain ⟨hown, hrest⟩ := encodable_cons.mp hi
    obtain ⟨hone, hothers⟩ := List.forall_mem_cons.mp hplain
    cases hpath with
    | nil => exact .inl rfl
    | cons hfirst hpath =>
      obtain ⟨rfl, rfl, _⟩ := hfirst.eq_next h hown hone
      have hpos := hown.size_pos
      rcases ih h.tail hrest hothers hpath with rfl | hlt
      · cases hpath
        exact .inr (by omega)
      · exact .inr (by omega)

end Paths

/-- Every path from one offset that gets as far as another goes through it, and the instructions up
to there are as described. -/
def Crosses (code : List UInt8) (a b : Nat) (P : List Instr → Prop) : Prop :=
  ∀ c trace, b ≤ c → Path code a trace c →
    ∃ front back, trace = front ++ back ∧ P front ∧ Path code a front b ∧ Path code b back c

namespace Crosses

variable {code : List UInt8} {a b c : Nat} {P Q R : List Instr → Prop} {i : Instr}
  {instrs back : List Instr}

/-- A weaker description. -/
theorem mono (h : Crosses code a b P) (hweaker : ∀ trace, P trace → Q trace) :
    Crosses code a b Q := by
  intro c trace hle hpath
  obtain ⟨front, back, htrace, hfront, hpaths⟩ := h c trace hle hpath
  exact ⟨front, back, htrace, hweaker front hfront, hpaths⟩

/-- Ways follow each other. -/
theorem trans (h1 : Crosses code a b P) (h2 : Crosses code b c Q) (hle : b ≤ c)
    (hboth : ∀ front back, P front → Q back → R (front ++ back)) : Crosses code a c R := by
  intro d trace hd hpath
  obtain ⟨front, rest, rfl, hfront, hpath1, hrest⟩ := h1 d trace (by omega) hpath
  obtain ⟨middle, back, rfl, hmiddle, hpath2, hback⟩ := h2 d rest hd hrest
  exact ⟨front ++ middle, back, (List.append_assoc _ _ _).symm, hboth front middle hfront hmiddle,
    hpath1.append hpath2, hback⟩

/-- Instructions in a row have one way through them, if none of them jumps. -/
theorem straight (h : HasCode code a instrs) (hi : Encodable instrs)
    (hplain : ∀ i ∈ instrs, i.distance? = none) :
    Crosses code a (a + codeSize instrs) (· = instrs) := by
  induction instrs generalizing a with
  | nil => exact fun c trace _ hpath => ⟨[], trace, rfl, rfl, .nil, hpath⟩
  | cons i rest ih =>
    obtain ⟨hown, hrest⟩ := encodable_cons.mp hi
    obtain ⟨hone, hothers⟩ := List.forall_mem_cons.mp hplain
    have hpos := hown.size_pos
    rw [codeSize_cons, ← Nat.add_assoc]
    intro c trace hle hpath
    cases hpath with
    | nil => omega
    | cons hfirst hpath =>
      obtain ⟨rfl, rfl, _⟩ := hfirst.eq_next h hown hone
      obtain ⟨front, back, rfl, rfl, hfront, hback⟩ := ih h.tail hrest hothers c _ hle hpath
      exact ⟨_ :: front, back, rfl, rfl, .cons hfirst hfront, hback⟩

/-- A branch goes to its target at once, or through the instructions between. -/
theorem branch {cond : Cond} {rel : SignedField} (h : HasCode code a (.jcc cond rel :: back))
    (htarget : ((a + (Instr.jcc cond rel).size : Nat) : Int) + rel.value = b) (hlt : a < b)
    (hbody : Crosses code (a + (Instr.jcc cond rel).size) b P) :
    Crosses code a b fun trace => trace = [.jcc cond rel] ∨
      ∃ body, P body ∧ trace = .jcc cond rel :: body := by
  have hfetched := h.fetch_eq (i := .jcc cond rel) trivial
  intro c trace hle hpath
  cases hpath with
  | nil => omega
  | cons hfirst hpath =>
    cases hfirst with
    | next hfetch hon =>
      cases hfetched.symm.trans hfetch
      obtain ⟨front, back, rfl, hfront, hpath1, hpath2⟩ := hbody c _ hle hpath
      exact ⟨_ :: front, back, rfl, .inr ⟨front, hfront, rfl⟩, .cons (.next hfetched rfl) hpath1,
        hpath2⟩
    | jump hfetch hdistance hstop =>
      cases hfetched.symm.trans hfetch
      cases hdistance
      obtain rfl := Int.ofNat.inj (hstop.symm.trans htarget)
      exact ⟨[_], _, rfl, .inl rfl, .cons (.jump hfetched rfl htarget) .nil, hpath⟩

end Crosses

end NativeForge.X64
