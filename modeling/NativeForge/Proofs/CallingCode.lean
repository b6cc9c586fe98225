import NativeForge.Proofs.LoweredArithmetic

/-!
# Code that calls functions

A run of the processor in a piece of code ends at a call. Here a call is a step of its own: the
return address is pushed, the function does what it does, and the processor goes on behind the call
in the state that the function leaves. Nothing is known about the functions but that they return;
what a run does is told by the list of calls that it makes, each with the states around it.
-/

namespace NativeForge.X64

/-- Behind an instruction stand the instructions that follow it. -/
theorem HasCode.tail {code : List UInt8} {offset : Nat} {i : Instr} {back : List Instr}
    (h : HasCode code offset (i :: back)) : HasCode code (offset + i.size) back := by
  have hback := HasCode.right (show HasCode code offset ([i] ++ back) from h)
  rw [codeSize_cons, codeSize_nil, Nat.add_zero] at hback
  exact hback

/-- A call that was made. -/
structure MadeCall where
  /-- Address of the function. -/
  target : BitVec 64
  /-- The state in which the function was entered; the return address is on the stack. -/
  before : State
  /-- The state in which the function returned. -/
  after : State

/-- What a function returned. -/
def MadeCall.value (c : MadeCall) : BitVec 64 := c.after.regs .rax

/-- What functions do: the state in which they return, for the calls made so far, the address of the
function and the state in which it is entered. -/
abbrev Callees := List MadeCall → BitVec 64 → State → State

/-- Code at an address, with the functions around it. -/
structure Linked where
  /-- Bytes of the code. -/
  code : List UInt8
  /-- Address of the code. -/
  base : BitVec 64
  /-- The functions. -/
  callees : Callees

/-- A point of a run. -/
structure Moment where
  /-- Offset of the next instruction. -/
  offset : Nat
  /-- State of the processor. -/
  state : State
  /-- Calls made so far. -/
  calls : List MadeCall

namespace Linked

/-- Where the processor goes on behind an instruction that ends at an offset. The code is left by
jumps to an address and by returns. -/
def follow (x : Linked) (next : Nat) (s : State) (calls : List MadeCall) : Control → Option Moment
  | .next => some ⟨next, s, calls⟩
  | .jump distance => if 0 ≤ next + distance then some ⟨(next + distance).toNat, s, calls⟩ else none
  | .call distance => do
    let back := x.base + BitVec.ofNat 64 next
    let target := back + BitVec.ofInt 64 distance
    let entered ← s.push back
    let returned := x.callees calls target entered
    return ⟨next, returned, calls ++ [⟨target, entered, returned⟩]⟩
  | .goto _ | .ret => none

/-- One step of the processor, where a whole call is a step. -/
def step (x : Linked) (m : Moment) : Option Moment := do
  let (i, next) ← fetch x.code m.offset
  let (t, control) ← i.exec m.state
  x.follow next t m.calls control

/-- Some steps of the processor. -/
def run (x : Linked) : Nat → Moment → Option Moment
  | 0, m => some m
  | count + 1, m => (x.step m).bind (x.run count)

/-- After some calls the processor gets from one offset and state to others, and makes further calls
on the way. -/
def Makes (x : Linked) (history : List MadeCall) (a : Nat) (s : State) (b : Nat) (t : State)
    (calls : List MadeCall) : Prop :=
  ∃ count, x.run count ⟨a, s, history⟩ = some ⟨b, t, history ++ calls⟩

variable {x : Linked} {history calls calls' : List MadeCall} {a b c : Nat} {s t u : State}

/-- A step without a call is a step of the processor alone. -/
theorem step_of_step (h : X64.step x.code a s = some (b, t)) :
    x.step ⟨a, s, history⟩ = some ⟨b, t, history⟩ := by
  obtain ⟨⟨i, next⟩, hf, h⟩ := Option.bind_eq_some_iff.mp h
  obtain ⟨⟨v, control⟩, hx, h⟩ := Option.bind_eq_some_iff.mp h
  rw [step]
  simp only [hf, hx, Option.bind_eq_bind, Option.bind_some]
  cases control with
  | next =>
    cases h
    rfl
  | jump distance =>
    dsimp only at h
    split at h
    · rename_i hle
      cases h
      exact if_pos hle
    · cases h
  | call | goto | ret => cases h

/-- A run is a run of its first steps and of the others. -/
theorem run_add (x : Linked) (m n : Nat) (start : Moment) :
    x.run (m + n) start = (x.run m start).bind (x.run n) := by
  induction m generalizing start with
  | zero =>
    rw [Nat.zero_add]
    rfl
  | succ m ih =>
    rw [Nat.add_right_comm, run, run, Option.bind_assoc]
    exact congrArg _ (funext ih)

/-- There is no step behind a return. -/
theorem step_eq_none_of_ret {m : Moment} {next : Nat}
    (hfetch : fetch x.code m.offset = some (.ret, next)) : x.step m = none := by
  rw [step]
  simp only [hfetch, Option.bind_eq_bind, Option.bind_some, Instr.exec, follow]

/-- There is no step in front of the code. -/
theorem step_eq_none_of_jump {m : Moment} {i : Instr} {next : Nat} {distance : Int}
    (hfetch : fetch x.code m.offset = some (i, next))
    (hexec : i.exec m.state = some (t, .jump distance)) (hback : next + distance < 0) :
    x.step m = none := by
  rw [step]
  simp only [hfetch, hexec, Option.bind_eq_bind, Option.bind_some, follow]
  exact if_neg (by omega)

/-- A run ends at one moment only. -/
theorem run_unique {m n : Nat} {start p q : Moment} (hp : x.run m start = some p)
    (hpend : x.step p = none) (hq : x.run n start = some q) (hqend : x.step q = none) : p = q := by
  -- the longer run goes on from the end of the shorter one, so it is not longer
  have hgoes : ∀ {m n p q}, x.run m start = some p → x.step p = none →
      x.run n start = some q → m ≤ n → p = q := by
    intro m n p q hp hpend hq hle
    obtain ⟨k, rfl⟩ := Nat.exists_eq_add_of_le hle
    rw [run_add, hp, Option.bind_some] at hq
    cases k with
    | zero => exact Option.some.inj hq
    | succ k =>
      rw [run, hpend] at hq
      cases hq
  rcases Nat.le_total m n with hle | hle
  · exact hgoes hp hpend hq hle
  · exact (hgoes hq hqend hp hle).symm

/-- A call was made by one of the functions. -/
def MadeBy (x : Linked) (c : MadeCall) : Prop :=
  ∃ history, c.after = x.callees history c.target c.before

/-- A step adds nothing but calls of the functions. -/
theorem step_calls {m m' : Moment} (h : x.step m = some m') :
    ∃ calls, m'.calls = m.calls ++ calls ∧ ∀ c ∈ calls, x.MadeBy c := by
  obtain ⟨⟨i, next⟩, _, h⟩ := Option.bind_eq_some_iff.mp h
  obtain ⟨⟨t, control⟩, _, h⟩ := Option.bind_eq_some_iff.mp h
  cases control with
  | next =>
    cases h
    exact ⟨[], (List.append_nil _).symm, List.forall_mem_nil _⟩
  | jump distance =>
    dsimp only [follow] at h
    split at h
    · cases h
      exact ⟨[], (List.append_nil _).symm, List.forall_mem_nil _⟩
    · cases h
  | call distance =>
    obtain ⟨entered, _, h⟩ := Option.bind_eq_some_iff.mp h
    cases h
    refine ⟨_, rfl, fun c hc => ?_⟩
    obtain rfl := List.mem_singleton.mp hc
    exact ⟨m.calls, rfl⟩
  | goto | ret => cases h

/-- A run adds nothing but calls of the functions. -/
theorem run_calls {count : Nat} {m m' : Moment} (h : x.run count m = some m') :
    ∃ calls, m'.calls = m.calls ++ calls ∧ ∀ c ∈ calls, x.MadeBy c := by
  induction count generalizing m with
  | zero =>
    cases h
    exact ⟨[], (List.append_nil _).symm, List.forall_mem_nil _⟩
  | succ count ih =>
    obtain ⟨m1, hstep, h⟩ := Option.bind_eq_some_iff.mp h
    obtain ⟨calls, hcalls, hmade⟩ := step_calls hstep
    obtain ⟨calls', hcalls', hmade'⟩ := ih h
    refine ⟨calls ++ calls', ?_, List.forall_mem_append.mpr ⟨hmade, hmade'⟩⟩
    rw [hcalls', hcalls, List.append_assoc]

namespace Makes

/-- The calls that are made are calls of the functions. -/
theorem madeBy (h : x.Makes history a s b t calls) {c : MadeCall} (hc : c ∈ calls) :
    x.MadeBy c := by
  obtain ⟨count, h⟩ := h
  obtain ⟨added, hadded, hmade⟩ := run_calls h
  exact hmade c (List.append_cancel_left hadded ▸ hc)

/-- Runs go on one behind the other. -/
theorem trans (h1 : x.Makes history a s b t calls)
    (h2 : x.Makes (history ++ calls) b t c u calls') :
    x.Makes history a s c u (calls ++ calls') := by
  obtain ⟨m, h1⟩ := h1
  obtain ⟨n, h2⟩ := h2
  refine ⟨m + n, ?_⟩
  rw [run_add, h1, ← List.append_assoc]
  exact h2

/-- A run of the processor alone makes no call. -/
theorem of_reaches (h : Reaches x.code a s b t) : x.Makes history a s b t [] := by
  obtain ⟨count, h⟩ := h
  refine ⟨count, ?_⟩
  rw [List.append_nil]
  induction count generalizing a s with
  | zero =>
    cases h
    rfl
  | succ count ih =>
    obtain ⟨⟨d, v⟩, hstep, h⟩ := Option.bind_eq_some_iff.mp h
    rw [run, step_of_step hstep]
    exact ih h

/-- Instructions that go on one behind the other make no call. -/
theorem execAll {instrs : List Instr} (h : HasCode x.code a instrs) (hi : Encodable instrs)
    (hx : X64.execAll instrs s = some t) : x.Makes history a s (a + codeSize instrs) t [] :=
  of_reaches (.execAll h hi hx)

/-- A call instruction makes its call, if there is room for the return address. -/
theorem call {rel : Int32} {back : List Instr} {target : BitVec 64}
    (h : HasCode x.code a (.call rel :: back)) (hroom : s.Room 8)
    (htarget : x.base + BitVec.ofNat 64 (a + 5) + BitVec.ofInt 64 rel.toInt = target) :
    x.Makes history a s (a + 5)
      (x.callees history target (s.pushed (x.base + BitVec.ofNat 64 (a + 5))))
      [⟨target, s.pushed (x.base + BitVec.ofNat 64 (a + 5)),
        x.callees history target (s.pushed (x.base + BitVec.ofNat 64 (a + 5)))⟩] := by
  have hsize : (Instr.call rel).size = 5 := rfl
  have hfetch := h.fetch_eq trivial
  rw [hsize] at hfetch
  refine ⟨1, ?_⟩
  rw [run, step]
  simp only [hfetch, Option.bind_eq_bind, Option.bind_some, Instr.exec, follow,
    State.push_eq hroom, htarget]
  rfl

end Makes

end Linked

end NativeForge.X64
