import NativeForge.Proofs.ControlPaths
import NativeForge.Proofs.RegisterWrites

/-!
# Levels of the stack pointer on control paths

Most instructions move the stack pointer by a fixed distance or not at all, and a call brings it
back. The level of a path is the sum of these distances. Code that is divided into blocks has one
level at every place of a block, if every block starts at a door, leaves the stack pointer at the
level of its start wherever control goes on at a door, and jumps within itself only between places
of that level. Then no path between two doors moves the stack pointer, and every run that stays in
the code finds it at a door where it was at the door before.
-/

namespace NativeForge.X64

/-- How far an addition to the stack pointer or a subtraction from it moves it. -/
def stackMoveBy (op : AluOp) (size : OpSize) (imm : SignedField) : Option Int :=
  match op, size with
  | .add, .wide => some imm.value
  | .sub, .wide => some (-imm.value)
  | _, _ => none

/-- How far an instruction moves the stack pointer, if by a fixed distance. A call counts together
with the return from it. -/
def Instr.stackMove (i : Instr) : Option Int :=
  match i with
  | .push _ => some (-8)
  | .pop r => if r = .rsp then none else some 8
  | .call _ => some 0
  | .aluImm op size r imm => if r = .rsp then stackMoveBy op size imm else some 0
  | i => if .rsp ∈ i.written then none else some 0

/-- How far instructions move the stack pointer together. -/
def stackMoves : List Instr → Option Int
  | [] => some 0
  | i :: rest => i.stackMove.bind fun d => (stackMoves rest).map (d + ·)

section Moves

variable {front back instrs : List Instr} {i : Instr} {d e : Int}

/-- Instructions in two parts move the stack pointer one after the other. -/
theorem stackMoves_append (front back : List Instr) :
    stackMoves (front ++ back) =
      (stackMoves front).bind fun d => (stackMoves back).map (d + ·) := by
  induction front with
  | nil => cases h : stackMoves back <;> simp [stackMoves, h]
  | cons i front ih =>
    rw [List.cons_append, stackMoves, stackMoves, ih]
    cases i.stackMove <;> cases stackMoves front <;> cases stackMoves back <;>
      simp [Int.add_assoc]

/-- The distances of two parts add up. -/
theorem stackMoves_append_eq (hf : stackMoves front = some d) (hb : stackMoves back = some e) :
    stackMoves (front ++ back) = some (d + e) := by
  rw [stackMoves_append, hf, hb]
  rfl

/-- One instruction. -/
theorem stackMoves_singleton (i : Instr) : stackMoves [i] = i.stackMove := by
  cases h : i.stackMove <;> simp [stackMoves, h]

/-- Instructions that leave the stack pointer alone do so together. -/
theorem stackMoves_of_still (h : ∀ i ∈ instrs, i.stackMove = some 0) :
    stackMoves instrs = some 0 := by
  induction instrs with
  | nil => rfl
  | cons i rest ih =>
    obtain ⟨hi, hrest⟩ := List.forall_mem_cons.mp h
    rw [stackMoves, hi, ih hrest]
    rfl

/-- An instruction that does not write the stack pointer leaves it alone. -/
theorem Instr.stackMove_of_not_written (h : .rsp ∉ i.written) : i.stackMove = some 0 := by
  unfold stackMove
  split
  · exact absurd List.mem_cons_self h
  · exact absurd List.mem_cons_self h
  · rfl
  · rename_i op size r imm
    have hr : r ≠ .rsp := fun hr => h (by rw [hr]; exact List.mem_cons_self)
    rw [if_neg hr]
  · rw [if_neg h]

/-- A branch leaves the stack pointer alone. -/
theorem Instr.stackMove_of_distance {distance : Int} (h : i.distance? = some distance) :
    i.stackMove = some 0 := by
  cases i with
  | jmp | jcc => rfl
  | _ => cases h

/-- An instruction with a fixed distance moves the stack pointer by it; of a call, only the
instruction itself is meant here. -/
theorem Instr.rsp_of_exec {s t : State} {control : Control} (h : i.exec s = some (t, control))
    (hd : i.stackMove = some d) : t.regs .rsp = s.regs .rsp + BitVec.ofInt 64 d := by
  have hother : (if .rsp ∈ i.written then none else some 0) = some d →
      t.regs .rsp = s.regs .rsp + BitVec.ofInt 64 d := by
    intro hd
    split at hd
    · cases hd
    · rename_i hr
      cases hd
      rw [i.regs_of_exec h hr]
      simp
  cases i with
  | push r =>
    cases hd
    obtain ⟨u, hu, h⟩ := Option.bind_eq_some_iff.mp h
    cases h
    obtain ⟨v, _, rfl⟩ := Option.map_eq_some_iff.mp hu
    rw [State.regs_setReg, if_pos rfl, BitVec.sub_eq_add_neg]
    rfl
  | pop r =>
    obtain ⟨u, hu, h⟩ := Option.bind_eq_some_iff.mp h
    cases h
    obtain ⟨v, _, rfl⟩ := Option.map_eq_some_iff.mp hu
    change (if r = .rsp then none else some 8) = some d at hd
    split at hd
    · cases hd
    · rename_i hr
      cases hd
      rw [State.regs_setReg, if_neg (Ne.symm hr), State.regs_setReg, if_pos rfl]
      rfl
  | call rel =>
    cases hd
    cases h
    simp
  | aluImm op size r imm =>
    change (if r = .rsp then stackMoveBy op size imm else some 0) = some d at hd
    split at hd
    · rename_i hr
      subst hr
      cases h
      unfold stackMoveBy at hd
      split at hd
      · cases hd
        simp [State.alu, AluOp.apply]
      · cases hd
        simp [State.alu, AluOp.apply, BitVec.sub_eq_add_neg, BitVec.ofInt_neg]
      · cases hd
    · rename_i hr
      exact hother (by rw [← hd]; exact if_neg (by simpa [Instr.written] using Ne.symm hr))
  | _ => exact hother hd

end Moves

/-- A path that stays in the code: jumps at some offsets leave it. -/
inductive InnerPath (code : List UInt8) (exits : Nat → Prop) : Nat → List Instr → Nat → Prop
  | nil {a : Nat} : InnerPath code exits a [] a
  | cons {a b c : Nat} {i : Instr} {trace : List Instr} (hfirst : FlowsTo code a i b)
      (hstay : exits a → i.passesOn = true) (hrest : InnerPath code exits b trace c) :
      InnerPath code exits a (i :: trace) c

/-- The functions return with the stack pointer where it was before the call. -/
def Linked.KeepsStack (x : Linked) : Prop :=
  ∀ calls target s, (x.callees calls target s).regs .rsp = s.regs .rsp + 8

/-- A run that stays in the code, with the instructions on its way: jumps at some offsets leave the
code. -/
inductive Linked.Walks (x : Linked) (exits : Nat → Prop) : Moment → List Instr → Moment → Prop
  | nil {m : Moment} : Walks x exits m [] m
  | cons {m n last : Moment} {i : Instr} {stop : Nat} {trace : List Instr}
      (hfetch : fetch x.code m.offset = some (i, stop)) (hstep : x.step m = some n)
      (hstay : exits m.offset → i.passesOn = true) (hrest : Walks x exits n trace last) :
      Walks x exits m (i :: trace) last

section Walks

variable {x : Linked} {exits : Nat → Prop} {m n : Moment} {i : Instr} {stop : Nat} {d : Int}
  {trace : List Instr}

/-- A step follows control from the instruction that it fetches. -/
theorem Linked.flowsTo_of_fetch (hfetch : fetch x.code m.offset = some (i, stop))
    (hstep : x.step m = some n) : FlowsTo x.code m.offset i n.offset := by
  obtain ⟨j, hflows⟩ := Linked.flowsTo_of_step hstep
  cases hflows with
  | next hf hon =>
    cases hfetch.symm.trans hf
    exact .next hf hon
  | jump hf hdistance htarget =>
    cases hfetch.symm.trans hf
    exact .jump hf hdistance htarget

/-- A run that stays in the code is on a path that stays there. -/
theorem Linked.Walks.innerPath (h : x.Walks exits m trace n) :
    InnerPath x.code exits m.offset trace n.offset := by
  induction h with
  | nil => exact .nil
  | cons hfetch hstep hstay _ ih => exact .cons (Linked.flowsTo_of_fetch hfetch hstep) hstay ih

/-- A step moves the stack pointer by the distance of its instruction. -/
theorem Linked.rsp_of_step (hx : x.KeepsStack) (hfetch : fetch x.code m.offset = some (i, stop))
    (hstep : x.step m = some n) (hd : i.stackMove = some d) :
    n.state.regs .rsp = m.state.regs .rsp + BitVec.ofInt 64 d := by
  obtain ⟨⟨j, next⟩, hf, hstep⟩ := Option.bind_eq_some_iff.mp hstep
  obtain ⟨⟨t, control⟩, hexec, hfollow⟩ := Option.bind_eq_some_iff.mp hstep
  cases hfetch.symm.trans hf
  have hrsp := i.rsp_of_exec hexec hd
  cases control with
  | next =>
    cases hfollow
    exact hrsp
  | jump distance =>
    dsimp only [Linked.follow] at hfollow
    split at hfollow
    · cases hfollow
      exact hrsp
    · cases hfollow
  | call distance =>
    obtain ⟨entered, hpush, hfollow⟩ := Option.bind_eq_some_iff.mp hfollow
    cases hfollow
    obtain ⟨u, _, rfl⟩ := Option.map_eq_some_iff.mp hpush
    dsimp only
    rw [hx, State.regs_setReg, if_pos rfl, hrsp]
    exact BitVec.sub_add_cancel _ _
  | goto | ret => cases hfollow

/-- A run moves the stack pointer by the level of its way. -/
theorem Linked.Walks.rsp_eq (h : x.Walks exits m trace n) (hx : x.KeepsStack)
    (hd : stackMoves trace = some d) :
    n.state.regs .rsp = m.state.regs .rsp + BitVec.ofInt 64 d := by
  induction h generalizing d with
  | nil =>
    cases hd
    simp
  | cons hfetch hstep _ _ ih =>
    obtain ⟨first, hi, hd⟩ := Option.bind_eq_some_iff.mp hd
    obtain ⟨others, ho, rfl⟩ := Option.map_eq_some_iff.mp hd
    rw [ih ho, Linked.rsp_of_step hx hfetch hstep hi, BitVec.ofInt_add, BitVec.add_assoc]

/-- A run on a way of level zero brings the stack pointer back. -/
theorem Linked.Walks.rsp_of_level (h : x.Walks exits m trace n) (hx : x.KeepsStack)
    (hzero : stackMoves trace = some 0) : n.state.regs .rsp = m.state.regs .rsp := by
  simpa using h.rsp_eq hx hzero

/-- A run goes on with another one. -/
theorem Linked.Walks.append {last : Moment} {back : List Instr} (h : x.Walks exits m trace n)
    (h' : x.Walks exits n back last) : x.Walks exits m (trace ++ back) last := by
  induction h with
  | nil => exact h'
  | cons hfetch hstep hstay _ ih => exact .cons hfetch hstep hstay (ih h')

/-- A run stays in code that no jump leaves. -/
theorem Linked.walks_of_run (hin : ∀ a, ¬exits a) {count : Nat} (h : x.run count m = some n) :
    ∃ trace, x.Walks exits m trace n := by
  induction count generalizing m with
  | zero =>
    cases h
    exact ⟨[], .nil⟩
  | succ count ih =>
    obtain ⟨next, hstep, hrest⟩ := Option.bind_eq_some_iff.mp h
    obtain ⟨trace, hwalks⟩ := ih hrest
    obtain ⟨⟨i, stop⟩, hfetch, _⟩ := Option.bind_eq_some_iff.mp hstep
    exact ⟨i :: trace, .cons hfetch hstep (fun hexit => absurd hexit (hin _)) hwalks⟩

end Walks

/-- Control leaves instructions only for doors and with the stack pointer where it was at their
start; jumps within them go to places of that level, and calls are made there. -/
structure Levelled (doors exits : Nat → Prop) (start : Nat) (instrs : List Instr) : Prop where
  /-- Behind the last instruction, if control gets there, is a door. -/
  passes : ∀ front i, instrs = front ++ [i] → i.passesOn = true →
    stackMoves instrs = some 0 ∧ doors (start + codeSize instrs)
  /-- A jump leaves the code, or leads to a door or to a place of the same level. -/
  jumps : ∀ front i back distance, instrs = front ++ i :: back → i.distance? = some distance →
    (exits (start + codeSize front) ∧ i.passesOn = false) ∨
    (stackMoves front = some 0 ∧ ∃ target : Nat,
      ((start + codeSize front + i.size : Nat) : Int) + distance = target ∧
      (doors target ∨ ∃ before behind, instrs = before ++ behind ∧ behind ≠ [] ∧
        target = start + codeSize before ∧ stackMoves before = some 0))
  /-- A call is made at the level of the start. -/
  calls : ∀ front rel back, instrs = front ++ .call rel :: back → stackMoves front = some 0

/-- Every jump among instructions from an offset on leads to one of the given targets. -/
def JumpsTo (targets : Int → Prop) : Nat → List Instr → Prop
  | _, [] => True
  | a, i :: rest => (∀ distance, i.distance? = some distance →
      targets ((a + i.size : Nat) + distance)) ∧ JumpsTo targets (a + i.size) rest

section Jumps

variable {targets : Int → Prop} {a : Nat} {front back instrs : List Instr} {i : Instr}
  {distance : Int}

/-- The jumps of two parts. -/
theorem jumpsTo_append :
    JumpsTo targets a (front ++ back) ↔
      JumpsTo targets a front ∧ JumpsTo targets (a + codeSize front) back := by
  induction front generalizing a with
  | nil => simp [JumpsTo]
  | cons i front ih =>
    rw [List.cons_append, JumpsTo, JumpsTo, ih, codeSize_cons, Nat.add_assoc, and_assoc]

/-- Instructions that do not jump. -/
theorem jumpsTo_of_plain (h : ∀ i ∈ instrs, i.distance? = none) : JumpsTo targets a instrs := by
  induction instrs generalizing a with
  | nil => trivial
  | cons i rest ih =>
    obtain ⟨hi, hrest⟩ := List.forall_mem_cons.mp h
    refine ⟨fun distance hd => ?_, ih hrest⟩
    rw [hi] at hd
    cases hd

/-- A branch behind instructions that do not jump. -/
theorem jumpsTo_branch (hplain : ∀ j ∈ front, j.distance? = none) (hd : i.distance? = some distance)
    (ht : targets ((a + codeSize (front ++ [i]) : Nat) + distance)) :
    JumpsTo targets a (front ++ [i]) := by
  refine jumpsTo_append.mpr ⟨jumpsTo_of_plain hplain, fun d hd' => ?_, trivial⟩
  obtain rfl := Option.some.inj (hd.symm.trans hd')
  rwa [codeSize_append, codeSize_cons, codeSize_nil, Nat.add_zero, ← Nat.add_assoc] at ht

/-- Jumps to some targets are jumps to more targets. -/
theorem JumpsTo.mono {more : Int → Prop} (h : JumpsTo targets a instrs)
    (hmore : ∀ t, targets t → more t) : JumpsTo more a instrs := by
  induction instrs generalizing a with
  | nil => trivial
  | cons i rest ih => exact ⟨fun d hd => hmore _ (h.1 d hd), ih h.2⟩

/-- One of the jumps. -/
theorem JumpsTo.target (h : JumpsTo targets a (front ++ i :: back))
    (hd : i.distance? = some distance) :
    targets ((a + codeSize front + i.size : Nat) + distance) :=
  (jumpsTo_append.mp h).2.1 distance hd

end Jumps

namespace Levelled

variable {doors exits : Nat → Prop} {start : Nat} {guard tail instrs : List Instr}

/-- The offsets that jumps may lead to: doors, and places between instructions. -/
def Targets (doors : Nat → Prop) (start : Nat) (instrs : List Instr) (t : Int) : Prop :=
  ∃ target : Nat, t = target ∧ (doors target ∨ ∃ before behind, instrs = before ++ behind ∧
    behind ≠ [] ∧ target = start + codeSize before)

/-- Instructions that leave the stack pointer alone and jump among themselves and to doors, in front
of instructions that do not jump, or only out of the code. -/
theorem of_guard (hstill : ∀ i ∈ guard, i.stackMove = some 0)
    (hjumps : JumpsTo (Targets doors start guard) start guard)
    (hplain : ∀ front i back, tail = front ++ i :: back → i.distance? = none ∨
      (exits (start + codeSize guard + codeSize front) ∧ i.passesOn = false))
    (hcalls : ∀ rel, .call rel ∉ tail)
    (hend : ∀ front i, guard ++ tail = front ++ [i] → i.passesOn = true →
      stackMoves tail = some 0 ∧ doors (start + codeSize (guard ++ tail))) :
    Levelled doors exits start (guard ++ tail) := by
  have hzero : ∀ front back, guard = front ++ back → stackMoves front = some 0 := fun front back h =>
    stackMoves_of_still fun i hi => hstill i (by simp [h, hi])
  have hguard := hzero guard [] (by simp)
  constructor
  · intro front i hsplit hon
    obtain ⟨htail, hdoor⟩ := hend front i hsplit hon
    exact ⟨stackMoves_append_eq hguard htail, hdoor⟩
  · intro front i back distance hsplit hd
    rcases List.append_eq_append_iff.mp hsplit with ⟨more, rfl, hmore⟩ | ⟨more, rfl, hmore⟩
    · -- the jump is behind the guard
      refine .inl ?_
      rcases hplain more i back hmore with hnone | hexit
      · rw [hnone] at hd
        cases hd
      · rwa [codeSize_append, ← Nat.add_assoc]
    · cases more with
      | nil =>
        refine .inl ?_
        rcases hplain [] i back hmore.symm with hnone | hexit
        · rw [hnone] at hd
          cases hd
        · simpa using hexit
      | cons j more =>
        obtain ⟨rfl, rfl⟩ := List.cons.inj hmore
        obtain ⟨target, htarget, hplace⟩ := hjumps.target hd
        refine .inr ⟨hzero front _ rfl, target, htarget, ?_⟩
        rcases hplace with hdoor | ⟨before, behind, hbefore, hne, hplace⟩
        · exact .inl hdoor
        · refine .inr ⟨before, behind ++ tail, ?_, by simp [hne], hplace, hzero before behind hbefore⟩
          rw [← List.append_assoc, ← hbefore]
  · intro front rel back hsplit
    rcases List.append_eq_append_iff.mp hsplit with ⟨more, rfl, hmore⟩ | ⟨more, rfl, hmore⟩
    · exact absurd (by rw [hmore]; simp) (hcalls rel)
    · exact hzero front more rfl

/-- Instructions that leave the stack pointer alone. -/
theorem still (hstill : ∀ i ∈ instrs, i.stackMove = some 0)
    (hjumps : JumpsTo (Targets doors start instrs) start instrs)
    (hend : ∀ front i, instrs = front ++ [i] → i.passesOn = true →
      doors (start + codeSize instrs)) : Levelled doors exits start instrs := by
  rw [← List.append_nil instrs]
  refine of_guard hstill hjumps (fun front i back h => ?_) (by simp) fun front i h hon => ?_
  · simp at h
  · rw [List.append_nil] at h ⊢
    exact ⟨rfl, hend front i h hon⟩

/-- Instructions in a row without calls that bring the stack pointer back. -/
theorem straight (hplain : ∀ i ∈ instrs, i.distance? = none) (hcalls : ∀ rel, .call rel ∉ instrs)
    (hzero : stackMoves instrs = some 0) (hdoor : doors (start + codeSize instrs)) :
    Levelled doors exits start instrs :=
  @of_guard _ _ _ [] instrs (by simp) trivial
    (fun front i back h => .inl (hplain i (by simp [h]))) hcalls fun _ _ _ _ => ⟨hzero, hdoor⟩

/-- Instructions in a row without calls that control does not get behind. -/
theorem ending {front : List Instr} {last : Instr} (hplain : ∀ i ∈ front, i.distance? = none)
    (hcalls : ∀ rel, .call rel ∉ front ++ [last]) (hlast : last.distance? = none)
    (hoff : last.passesOn = false) : Levelled doors exits start (front ++ [last]) := by
  refine @of_guard _ _ _ [] (front ++ [last]) (by simp) trivial (fun before i back h => .inl ?_)
    hcalls ?_
  · have hi : i ∈ front ++ [last] := by
      rw [h]
      simp
    rcases List.mem_append.mp hi with hi | hi
    · exact hplain i hi
    · rwa [List.mem_singleton.mp hi]
  · intro before i h hon
    rw [List.nil_append] at h
    obtain ⟨_, rfl⟩ := List.append_singleton_inj.mp h
    rw [hoff] at hon
    cases hon

end Levelled

/-- Instructions at a door that control does not leave but for doors. -/
structure IsBlock (code : List UInt8) (doors exits : Nat → Prop) (start : Nat)
    (instrs : List Instr) : Prop where
  /-- There is an instruction at the door. -/
  nonempty : instrs ≠ []
  /-- The instructions stand in the code. -/
  hasCode : HasCode code start instrs
  /-- The instructions can be read back. -/
  encodable : Encodable instrs
  /-- The instructions keep account of the stack pointer. -/
  levelled : Levelled doors exits start instrs
  /-- No door is in the middle. -/
  apart : ∀ front back, instrs = front ++ back → front ≠ [] → back ≠ [] →
    ¬doors (start + codeSize front)

/-- There is a block at every door but at the end of the code. -/
def HasBlocks (code : List UInt8) (doors exits : Nat → Prop) : Prop :=
  ∀ a, doors a → code.length ≤ a ∨ ∃ instrs, IsBlock code doors exits a instrs

/-- A place of the code and the level there, relative to the doors. -/
def AtLevel (code : List UInt8) (doors exits : Nat → Prop) (a : Nat) (level : Option Int) : Prop :=
  (doors a ∧ level = some 0) ∨ ∃ start front back, IsBlock code doors exits start (front ++ back) ∧
    back ≠ [] ∧ a = start + codeSize front ∧ level = stackMoves front

section Blocks

variable {code : List UInt8} {doors exits : Nat → Prop} {a b : Nat} {level : Option Int} {i : Instr}
  {trace : List Instr}

/-- Nothing is fetched behind the code. -/
theorem fetch_eq_none (h : code.length ≤ a) : fetch code a = none := by
  unfold fetch
  rw [List.drop_of_length_le h]
  rfl

/-- Where control goes from, an instruction is fetched. -/
theorem FlowsTo.fetch_eq (h : FlowsTo code a i b) : ∃ stop, fetch code a = some (i, stop) := by
  cases h with
  | next hfetch _ => exact ⟨b, hfetch⟩
  | jump hfetch _ _ => exact ⟨_, hfetch⟩

/-- An instruction that is fetched at a place is one of a block. -/
theorem AtLevel.block (h : AtLevel code doors exits a level) (hb : HasBlocks code doors exits)
    {stop : Nat} (hfetch : fetch code a = some (i, stop)) :
    ∃ start front back, IsBlock code doors exits start (front ++ i :: back) ∧
      a = start + codeSize front ∧ level = stackMoves front ∧ stop = a + i.size := by
  have hread : ∀ start front back, IsBlock code doors exits start (front ++ back) → back ≠ [] →
      a = start + codeSize front → level = stackMoves front →
      ∃ start front back, IsBlock code doors exits start (front ++ i :: back) ∧
        a = start + codeSize front ∧ level = stackMoves front ∧ stop = a + i.size := by
    intro start front back hblock hne ha hlevel
    cases back with
    | nil => exact absurd rfl hne
    | cons j back =>
      have hown := (encodable_cons.mp (encodable_append.mp hblock.encodable).2).1
      have hat := hblock.hasCode.right.fetch_eq hown
      rw [← ha, hfetch] at hat
      obtain ⟨rfl, rfl⟩ := Prod.mk.inj (Option.some.inj hat)
      exact ⟨start, front, back, hblock, ha, hlevel, rfl⟩
  rcases h with ⟨hdoor, hlevel⟩ | ⟨start, front, back, hblock, hne, ha, hlevel⟩
  · rcases hb a hdoor with hend | ⟨instrs, hblock⟩
    · rw [fetch_eq_none hend] at hfetch
      cases hfetch
    · exact hread a [] instrs hblock hblock.nonempty rfl hlevel
  · exact hread start front back hblock hne ha hlevel

/-- Control goes from one place to another, and the level changes by the distance of the
instruction. -/
theorem AtLevel.step (h : AtLevel code doors exits a level) (hb : HasBlocks code doors exits)
    (hflows : FlowsTo code a i b) (hstay : exits a → i.passesOn = true) :
    AtLevel code doors exits b (level.bind fun d => i.stackMove.map (d + ·)) := by
  obtain ⟨stop, hfetch⟩ := hflows.fetch_eq
  obtain ⟨start, front, back, hblock, ha, rfl, hstop⟩ := h.block hb hfetch
  have hlevel : (stackMoves front).bind (fun d => i.stackMove.map (d + ·)) =
      stackMoves (front ++ [i]) := by
    rw [stackMoves_append, stackMoves_singleton]
  rw [hlevel]
  cases hflows with
  | next hfetch' hon =>
    cases hfetch.symm.trans hfetch'
    have hb' : b = start + codeSize (front ++ [i]) := by
      rw [codeSize_append, codeSize_cons, codeSize_nil]
      omega
    cases back with
    | nil =>
      obtain ⟨hzero, hdoor⟩ := hblock.levelled.passes front i rfl hon
      exact .inl ⟨hb' ▸ hdoor, hzero⟩
    | cons j back =>
      refine .inr ⟨start, front ++ [i], j :: back, ?_, by simp, hb', rfl⟩
      rwa [List.append_assoc]
  | jump hfetch' hdistance htarget =>
    cases hfetch.symm.trans hfetch'
    have hstill : stackMoves front = some 0 → stackMoves (front ++ [i]) = some 0 := by
      intro hzero
      rw [stackMoves_append_eq hzero ((stackMoves_singleton i).trans
        (Instr.stackMove_of_distance hdistance)), Int.add_zero]
    rcases hblock.levelled.jumps front i back _ rfl hdistance with
      ⟨hexit, hoff⟩ | ⟨hzero, target, hreach, hplace⟩
    · rw [hstay (ha ▸ hexit)] at hoff
      cases hoff
    · have heq : b = target := by omega
      rw [hstill hzero, heq]
      rcases hplace with hdoor | ⟨before, behind, hsplit, hne, hplace, hbefore⟩
      · exact .inl ⟨hdoor, rfl⟩
      · exact .inr ⟨start, before, behind, hsplit ▸ hblock, hne, hplace, hbefore.symm⟩

/-- The level at the end of a path from a door is that of the path. -/
theorem HasBlocks.atLevel (hb : HasBlocks code doors exits) (ha : doors a)
    (hpath : InnerPath code exits a trace b) : AtLevel code doors exits b (stackMoves trace) := by
  have hrun : ∀ before, AtLevel code doors exits a (stackMoves before) →
      AtLevel code doors exits b (stackMoves (before ++ trace)) := by
    clear ha
    induction hpath with
    | nil =>
      intro before h
      rwa [List.append_nil]
    | @cons _ _ _ i trace hfirst hstay _ ih =>
      intro before h
      have hnext := h.step hb hfirst hstay
      rw [← stackMoves_singleton i, ← stackMoves_append] at hnext
      have hlast := ih (before ++ [i]) hnext
      rwa [List.append_assoc] at hlast
  exact hrun [] (.inl ⟨ha, rfl⟩)

/-- A path between doors does not move the stack pointer. -/
theorem HasBlocks.level_of_door (hb : HasBlocks code doors exits) (ha : doors a) (hdoor : doors b)
    (hpath : InnerPath code exits a trace b) : stackMoves trace = some 0 := by
  rcases hb.atLevel ha hpath with ⟨_, hzero⟩ | ⟨start, front, back, hblock, hne, rfl, hlevel⟩
  · exact hzero
  · rw [hlevel]
    by_cases hfront : front = []
    · rw [hfront]
      rfl
    · exact absurd hdoor (hblock.apart front back rfl hfront hne)

/-- A path from a door to a call does not move the stack pointer. -/
theorem HasBlocks.level_of_call (hb : HasBlocks code doors exits) (ha : doors a)
    (hpath : InnerPath code exits a trace b) {rel : Int32} {stop : Nat}
    (hfetch : fetch code b = some (.call rel, stop)) : stackMoves trace = some 0 := by
  obtain ⟨_, front, back, hblock, _, hlevel, _⟩ := (hb.atLevel ha hpath).block hb hfetch
  rw [hlevel]
  exact hblock.levelled.calls front rel back rfl

end Blocks

end NativeForge.X64
