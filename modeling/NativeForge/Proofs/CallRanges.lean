import Mathlib.Data.Nat.Find
import NativeForge.Proofs.PatchRequests
import NativeForge.Proofs.TwoStages

/-!
# Calls and the range of their displacements

A call holds the way from its end to its target as a signed 32-bit number. Only the final pass knows
where the code will be, so only the final pass can find that a target is too far away. It repeats a
pass that succeeded, and it fails at the first call, in the order of the slots, that does not reach
its target. Where it does not fail, every call of the program leads to its target, whether it calls
a helper or a sub-program.
-/

namespace NativeForge

open X64 Virtual Target TailCall

/-- A call that starts some bytes behind an address, and what it calls. -/
structure CallPlace where
  /-- The address of the code. -/
  base : Address
  /-- The offset of the call in the code. -/
  start : Nat
  /-- The address that is called. -/
  target : Address
deriving DecidableEq, Repr

namespace CallPlace

variable (c : CallPlace)

/-- The address of the call. -/
def ip : Address := c.base + UInt64.ofNat c.start

/-- The way from the end of the call to its target, the short way around the address space. -/
def distance : Int := SiteState.distance c.ip c.target

/-- The address arithmetic of the call overflows. -/
def Overflows : Prop := 2 ^ 64 ≤ c.base.toNat + c.start ∨ SiteState.Overflows c.ip c.target

/-- The way to the target is a signed 32-bit number. -/
def InRange : Prop := -(2 ^ 31) ≤ c.distance ∧ c.distance < 2 ^ 31

/-- The call reaches its target. -/
def Reaches : Prop := ¬c.Overflows ∧ c.InRange

/-- The call does not reach its target, which is too far away. -/
def Misses (v : Int) : Prop := ¬c.Overflows ∧ c.distance = v ∧ ¬c.InRange

/-- Whether arithmetic overflows can be decided. -/
instance : Decidable c.Overflows :=
  haveI : Decidable (SiteState.Overflows c.ip c.target) := inferInstanceAs (Decidable (¬_))
  inferInstanceAs (Decidable (_ ∨ _))

/-- Whether a call is in range can be decided. -/
instance : Decidable c.InRange := inferInstanceAs (Decidable (_ ∧ _))

/-- Whether a call reaches its target can be decided. -/
instance : Decidable c.Reaches := inferInstanceAs (Decidable (_ ∧ _))

/-- Whether a call misses its target can be decided. -/
instance (v : Int) : Decidable (c.Misses v) := inferInstanceAs (Decidable (_ ∧ _ ∧ _))

variable {c}

/-- Without overflow, the call is as far behind the address as its offset says. -/
theorem toNat_ip (h : ¬c.Overflows) : c.ip.toNat = c.base.toNat + c.start := by
  have hlt : c.base.toNat + c.start < 2 ^ 64 := Nat.lt_of_not_le fun hle => h (.inl hle)
  rw [ip, UInt64.toNat_add, UInt64.toNat_ofNat']
  omega

/-- Without overflow, the distance is the difference of the two addresses as signed numbers. -/
theorem distance_eq (h : ¬c.Overflows) : c.distance = c.target.signed - (c.ip.signed + 5) := by
  have hexact : ¬SiteState.Overflows c.ip c.target := fun ho => h (.inr ho)
  obtain ⟨_, _, hle, hlt⟩ := not_not.mp hexact
  have hip := Address.signed_eq c.ip
  have hto := Address.signed_eq c.target
  have hspec := SiteState.distance_spec c.ip c.target
  have hend := c.ip.toNat_lt
  have htarget := c.target.toNat_lt
  unfold distance
  split at hip <;> split at hto <;> omega

/-- The displacement of a call that reaches its target leads there. -/
theorem Reaches.leads (h : c.Reaches) :
    ((c.base.toNat : Int) + (c.start + 5 : Nat) + (Int32.ofInt c.distance).toInt) % 2 ^ 64 =
      c.target.toNat := by
  obtain ⟨hexact, hle, hlt⟩ := h
  have hspec := (SiteState.distance_spec c.ip c.target).1
  have hip := toNat_ip hexact
  rw [Int32.toInt_ofInt_of_le hle hlt]
  unfold distance
  omega

end CallPlace

/-- How many bytes of its slot stand in front of a call: those that hand over the counter. -/
def Frame.callOffset (f : Frame) : Nat := if f.counted then 7 else 0

namespace Pass

variable {p q : Pass} {depth : UInt32} {index : Nat} {base target : Address} {v : Int}

/-- The place of a call in a slot. -/
def callPlace (p : Pass) (base : Address) (index : Nat) (target : Address) : CallPlace :=
  ⟨base, p.offset index + p.frame.callOffset, target⟩

/-- Handing over the counter takes the bytes in front of a call. -/
theorem codeSize_passCounter {counter : List Instr} (h : p.passCounter depth = .ok counter) :
    codeSize counter = p.frame.callOffset := by
  unfold Frame.callOffset
  obtain ⟨hc, off, _, rfl⟩ | ⟨hc, rfl⟩ := passCounter_eq_ok h
  · rw [if_pos hc]
    rfl
  · rw [hc]
    rfl

/-- The displacement of a call crashes where its arithmetic overflows. -/
theorem callDisplacement_crashes_or (hb : p.base = some base) :
    p.callDisplacement index p.frame.callOffset (some target) = .error .crash ∨
      ¬(p.callPlace base index target).Overflows := by
  unfold callDisplacement
  rw [hb]
  dsimp only
  cases hstart : (base.plus (p.offset index) : Result Error Address) with
  | error f =>
    obtain rfl := plus_eq_error hstart
    exact .inl rfl
  | ok start =>
    cases hip : (start.plus p.frame.callOffset : Result Error Address) with
    | error f =>
      obtain rfl := plus_eq_error hip
      exact .inl (by simp only [bind, Except.bind, hip])
    | ok ip =>
      rcases signedWord64_cases (ε := Error) (ip.signed + 5) with ⟨hle, hlt, hnext⟩ | hnext
      · rcases signedWord64_cases (ε := Error) (target.signed - (ip.signed + 5)) with
          ⟨hle', hlt', _⟩ | hrel
        · right
          have hsum := plus_eq_ok.mp hip
          rw [plus_eq_ok.mp hstart] at hsum
          have hfits := ip.toNat_lt
          have hplace : (p.callPlace base index target).ip = ip := by
            apply UInt64.toNat_inj.mp
            rw [CallPlace.ip, UInt64.toNat_add, UInt64.toNat_ofNat', hsum]
            simp only [callPlace]
            omega
          rintro (hover | hover)
          · simp only [callPlace] at hover
            omega
          · rw [hplace] at hover
            exact hover ⟨hle, hlt, hle', hlt'⟩
        · exact .inl (by simp only [bind, Except.bind, hip, hnext, hrel])
      · exact .inl (by simp only [bind, Except.bind, hip, hnext])

/-- Without overflow, a displacement is the distance to the target, if that fits. -/
theorem callDisplacement_of_not_overflows (hb : p.base = some base)
    (h : ¬(p.callPlace base index target).Overflows) :
    p.callDisplacement index p.frame.callOffset (some target) =
      if fitsInt32 (p.callPlace base index target).distance then
        .ok (Int32.ofInt (p.callPlace base index target).distance)
      else outOfRange .callDisplacement (p.callPlace base index target).distance := by
  have hip : (p.callPlace base index target).ip.toNat =
      base.toNat + (p.offset index + p.frame.callOffset) := CallPlace.toNat_ip h
  obtain ⟨hle, hlt, hle', hlt'⟩ := not_not.mp fun hover => h (.inr hover)
  rw [CallPlace.distance_eq h]
  generalize (p.callPlace base index target).ip = ip at hip hle hlt hle' hlt' ⊢
  obtain ⟨start, hsum⟩ : ∃ start : Address, start.toNat = base.toNat + p.offset index := by
    have hfits := ip.toNat_lt
    refine ⟨UInt64.ofNat (base.toNat + p.offset index), ?_⟩
    rw [UInt64.toNat_ofNat', Nat.mod_eq_of_lt (by omega)]
  have hstart : (base.plus (p.offset index) : Result Error Address) = .ok start :=
    plus_eq_ok.mpr hsum
  have hcall : (start.plus p.frame.callOffset : Result Error Address) = .ok ip :=
    plus_eq_ok.mpr (by rw [hip, hsum, Nat.add_assoc])
  have hnext : (signedWord64 (ip.signed + 5) : Result Error Int) = .ok (ip.signed + 5) :=
    signedWord64_eq_ok.mpr ⟨⟨hle, hlt⟩, rfl⟩
  have hrel : (signedWord64 (target.signed - (ip.signed + 5)) : Result Error Int) =
      .ok (target.signed - (ip.signed + 5)) := signedWord64_eq_ok.mpr ⟨⟨hle', hlt'⟩, rfl⟩
  unfold callDisplacement
  rw [hb]
  simp only [bind, Except.bind, hstart, hcall, hnext, hrel]
  rfl

/-- A displacement is had exactly where the call reaches its target. -/
theorem callDisplacement_eq_ok (hb : p.base = some base) {rel : Int32} :
    p.callDisplacement index p.frame.callOffset (some target) = .ok rel ↔
      (p.callPlace base index target).Reaches ∧
        rel = Int32.ofInt (p.callPlace base index target).distance := by
  constructor
  · intro h
    have hexact : ¬(p.callPlace base index target).Overflows :=
      (callDisplacement_crashes_or hb).resolve_left (by rw [h]; simp)
    rw [callDisplacement_of_not_overflows hb hexact] at h
    split at h
    · rename_i hfits
      exact ⟨⟨hexact, fitsInt32_iff.mp hfits⟩, (Except.ok.inj h).symm⟩
    · exact absurd h (outOfRange_ne_ok _ _ _)
  · rintro ⟨⟨hexact, hrange⟩, rfl⟩
    rw [callDisplacement_of_not_overflows hb hexact, if_pos (fitsInt32_iff.mpr hrange)]

/-- A displacement is out of its range exactly where the call misses its target. -/
theorem callDisplacement_eq_outOfRange (hb : p.base = some base) :
    p.callDisplacement index p.frame.callOffset (some target) =
        .error (.reported (.outOfRange .callDisplacement v)) ↔
      (p.callPlace base index target).Misses v := by
  constructor
  · intro h
    have hexact : ¬(p.callPlace base index target).Overflows :=
      (callDisplacement_crashes_or hb).resolve_left (by rw [h]; simp)
    rw [callDisplacement_of_not_overflows hb hexact] at h
    split at h
    · cases h
    · rename_i hfits
      cases h
      exact ⟨hexact, rfl, fun hrange => hfits (fitsInt32_iff.mpr hrange)⟩
  · rintro ⟨hexact, rfl, hfar⟩
    rw [callDisplacement_of_not_overflows hb hexact,
      if_neg fun hfits => hfar (fitsInt32_iff.mp hfits)]
    rfl

/-- The call of an operation reaches its target, if the operation is a call with a target. -/
def Reaches (p : Pass) (base : Address) (index : Nat) (operation : Operation) : Prop :=
  ∀ id subprogram target, operation = .call id subprogram →
    p.resolve ⟨index, id, subprogram⟩ = some target → (p.callPlace base index target).Reaches

/-- The operation is a call that misses its target. -/
def Misses (p : Pass) (base : Address) (index : Nat) (operation : Operation) (v : Int) : Prop :=
  ∃ id subprogram target, operation = .call id subprogram ∧
    p.resolve ⟨index, id, subprogram⟩ = some target ∧ (p.callPlace base index target).Misses v

/-- A call that was lowered without an address of the image is lowered again up to its
displacement. -/
theorem call_again (ha : p.Akin q) (hres : q.resolve = p.resolve) {id : Int32} {subprogram : Bool}
    {f : Fragment} (h : p.call depth index id subprogram = .ok f) :
    ∃ counter, codeSize counter = q.frame.callOffset ∧
      q.call depth index id subprogram = do
        let rel ← q.callDisplacement index q.frame.callOffset (q.resolve ⟨index, id, subprogram⟩)
        return { code := counter ++ [.call rel],
                 pending := (q.resolve ⟨index, id, subprogram⟩).isNone } := by
  obtain ⟨hknown, counter, _, hc, _⟩ := call_eq_ok.mp h
  rw [← hres] at hknown
  rw [← passCounter_akin ha] at hc
  have hsize := codeSize_passCounter hc
  refine ⟨counter, hsize, ?_⟩
  unfold call
  dsimp only
  rw [if_neg (Bool.eq_false_iff.mp hknown), hc, ← hsize]
  rfl

/-- A call that was lowered leads to its target. -/
theorem call_leads (hb : p.base = some base) {id : Int32} {subprogram : Bool} {f : Fragment}
    (hres : p.resolve ⟨index, id, subprogram⟩ = some target)
    (h : p.call depth index id subprogram = .ok f) :
    ∃ (counter : List Instr) (rel : Int32), f.code = counter ++ [.call rel] ∧
      codeSize counter = p.frame.callOffset ∧
      ((base.toNat : Int) + (p.offset index + p.frame.callOffset + 5 : Nat) + rel.toInt) % 2 ^ 64 =
        target.toNat := by
  obtain ⟨counter, hcounter, hcall⟩ := call_again ⟨rfl, rfl, rfl⟩ rfl h
  rw [h, hres] at hcall
  obtain ⟨rel, hrel, hf⟩ := bind_eq_ok.mp hcall.symm
  obtain rfl := pure_eq_ok.mp hf
  obtain ⟨hreaches, rfl⟩ := (callDisplacement_eq_ok hb).mp hrel
  exact ⟨counter, _, rfl, hcounter, hreaches.leads⟩

/-- An operation that was lowered either calls no known address and is lowered again, or is lowered
again once its displacement is had. -/
theorem lower_again_cases (ha : p.Akin q) (hres : q.resolve = p.resolve) {epilogue : Option Nat}
    {operation : Operation} {f : Fragment} (h : p.lower depth index epilogue operation = .ok f)
    (hr : p.Repeats q index (codeSize f.code)) :
    (∃ g, q.lower depth index epilogue operation = .ok g) ∧
        (∀ id subprogram, operation = .call id subprogram →
          q.resolve ⟨index, id, subprogram⟩ = none) ∨
      ∃ id subprogram target, ∃ fragment : Int32 → Fragment, operation = .call id subprogram ∧
        q.resolve ⟨index, id, subprogram⟩ = some target ∧
        q.lower depth index epilogue operation = do
          let rel ← q.callDisplacement index q.frame.callOffset (some target)
          return fragment rel := by
  by_cases hcall : ∃ id subprogram, operation = .call id subprogram
  · obtain ⟨id, subprogram, rfl⟩ := hcall
    obtain ⟨counter, _, hq⟩ := call_again ha hres h
    cases htarget : q.resolve ⟨index, id, subprogram⟩ with
    | none =>
      rw [htarget] at hq
      refine .inl ⟨⟨_, hq⟩, ?_⟩
      rintro _ _ ⟨⟩
      exact htarget
    | some target =>
      rw [htarget] at hq
      exact .inr ⟨id, subprogram, target, _, rfl, htarget, hq⟩
  · have hne : ∀ id subprogram, operation ≠ .call id subprogram :=
      fun id subprogram ho => hcall ⟨id, subprogram, ho⟩
    exact .inl ⟨⟨f, lower_again_of_ne_call ha hne h hr⟩,
      fun id subprogram ho => absurd ho (hne id subprogram)⟩

/-- An operation is lowered again exactly where its call reaches its target. -/
theorem lower_again_iff (ha : p.Akin q) (hres : q.resolve = p.resolve) (hb : q.base = some base)
    {epilogue : Option Nat} {operation : Operation} {f : Fragment}
    (h : p.lower depth index epilogue operation = .ok f)
    (hr : p.Repeats q index (codeSize f.code)) :
    (∃ g, q.lower depth index epilogue operation = .ok g) ↔ q.Reaches base index operation := by
  rcases lower_again_cases ha hres h hr with
    ⟨hok, hnone⟩ | ⟨id, subprogram, target, fragment, rfl, htarget, hq⟩
  · refine iff_of_true hok fun id subprogram target ho hsome => ?_
    rw [hnone id subprogram ho] at hsome
    cases hsome
  · rw [hq]
    constructor
    · rintro ⟨g, hg⟩ _ _ target' ⟨⟩ hsome
      obtain rfl : target = target' := Option.some.inj (htarget.symm.trans hsome)
      obtain ⟨rel, hrel, _⟩ := bind_eq_ok.mp hg
      exact ((callDisplacement_eq_ok hb).mp hrel).1
    · intro hreaches
      have hrel := (callDisplacement_eq_ok hb).mpr
        ⟨hreaches id subprogram target rfl htarget, rfl⟩
      exact ⟨_, bind_eq_ok.mpr ⟨_, hrel, rfl⟩⟩

/-- An operation is out of range exactly where its call misses its target. -/
theorem lower_again_eq_outOfRange (ha : p.Akin q) (hres : q.resolve = p.resolve)
    (hb : q.base = some base) {epilogue : Option Nat} {operation : Operation} {f : Fragment}
    (h : p.lower depth index epilogue operation = .ok f)
    (hr : p.Repeats q index (codeSize f.code)) :
    q.lower depth index epilogue operation =
        .error (.reported (.outOfRange .callDisplacement v)) ↔ q.Misses base index operation v := by
  rcases lower_again_cases ha hres h hr with
    ⟨⟨g, hg⟩, hnone⟩ | ⟨id, subprogram, target, fragment, rfl, htarget, hq⟩
  · rw [hg]
    refine iff_of_false (by simp) ?_
    rintro ⟨id, subprogram, target, ho, hsome, _⟩
    rw [hnone id subprogram ho] at hsome
    cases hsome
  · rw [hq, bind_pure_eq_error, callDisplacement_eq_outOfRange hb]
    constructor
    · intro hmisses
      exact ⟨id, subprogram, target, rfl, htarget, hmisses⟩
    · rintro ⟨_, _, target', ⟨⟩, hsome, hmisses⟩
      obtain rfl : target = target' := Option.some.inj (htarget.symm.trans hsome)
      exact hmisses

/-- A step reaches what it calls, if it calls anything. -/
def StepReaches (p : Pass) (base : Address) (s : Step) : Prop :=
  ∀ operation, s.operation = .ok operation → p.Reaches base s.index operation

/-- A step misses what it calls. -/
def StepMisses (p : Pass) (base : Address) (s : Step) (v : Int) : Prop :=
  ∃ operation, s.operation = .ok operation ∧ p.Misses base s.index operation v

/-- The first step that does not reach what it calls misses it. -/
def FirstMiss (p : Pass) (base : Address) (steps : List Step) (v : Int) : Prop :=
  ∃ before s after, steps = before ++ s :: after ∧ p.StepMisses base s v ∧
    ∀ x ∈ before, p.StepReaches base x

/-- A step is the first one to miss, or it reaches and the first one to miss is behind it. -/
theorem firstMiss_cons {step : Step} {rest : List Step} :
    p.FirstMiss base (step :: rest) v ↔
      p.StepMisses base step v ∨ p.StepReaches base step ∧ p.FirstMiss base rest v := by
  constructor
  · rintro ⟨before, s, after, hsplit, hmisses, hbefore⟩
    cases before with
    | nil =>
      obtain ⟨rfl, rfl⟩ := List.cons.inj hsplit
      exact .inl hmisses
    | cons x before =>
      obtain ⟨rfl, rfl⟩ := List.cons.inj hsplit
      exact .inr ⟨hbefore step (by simp), before, s, after, rfl, hmisses,
        fun y hy => hbefore y (by simp [hy])⟩
  · rintro (hmisses | ⟨hreaches, before, s, after, rfl, hmisses, hbefore⟩)
    · exact ⟨[], step, rest, rfl, hmisses, by simp⟩
    · refine ⟨step :: before, s, after, rfl, hmisses, fun x hx => ?_⟩
      rcases List.mem_cons.mp hx with rfl | hx
      · exact hreaches
      · exact hbefore x hx

/-- Steps that were placed are out of range exactly where the first one to miss misses. -/
theorem place_again_eq_outOfRange {steps : List Step} {start : Nat} {epilogue : Option Nat}
    {placed : List Placed} (ha : p.Akin q) (hres : q.resolve = p.resolve)
    (hmax : q.maxInsnSize = p.maxInsnSize) (hb : q.base = some base)
    (h : p.place depth steps start epilogue = .ok placed)
    (hr : ∀ f ∈ placed, p.Repeats q f.index (codeSize f.fragment.code)) :
    q.place depth steps start epilogue =
        .error (.reported (.outOfRange .callDisplacement v)) ↔ q.FirstMiss base steps v := by
  induction steps generalizing start epilogue placed with
  | nil =>
    rw [place]
    refine iff_of_false (by simp) ?_
    rintro ⟨before, s, after, hsplit, _⟩
    simp at hsplit
  | cons step rest ih =>
    obtain ⟨operation, fragment, tail, ho, hl, hsize, ht, rfl⟩ := place_cons.mp h
    have hhead := hr _ (List.mem_cons_self ..)
    have htail := ih ht fun f hf => hr f (List.mem_cons_of_mem _ hf)
    -- what the step means is known, so it reaches or misses as its operation does
    have hreaches : q.StepReaches base step ↔
        ∃ g, q.lower depth step.index epilogue operation = .ok g := by
      rw [lower_again_iff ha hres hb hl hhead]
      exact ⟨fun hstep => hstep operation ho,
        fun hop _ hop' => Except.ok.inj (ho.symm.trans hop') ▸ hop⟩
    have hmisses : q.StepMisses base step v ↔ q.lower depth step.index epilogue operation =
        .error (.reported (.outOfRange .callDisplacement v)) := by
      rw [lower_again_eq_outOfRange ha hres hb hl hhead]
      constructor
      · rintro ⟨_, hop', hmiss⟩
        exact Except.ok.inj (ho.symm.trans hop') ▸ hmiss
      · exact fun hmiss => ⟨operation, ho, hmiss⟩
    rw [firstMiss_cons, hreaches, hmisses, ← htail, place, ho]
    cases hlower : q.lower depth step.index epilogue operation with
    | error f =>
      simp only [reduceCtorEq, exists_false, false_and, or_false, Except.error.injEq]
      show (Except.ok operation >>= _) = _ ↔ _
      simp only [bind, Except.bind, hlower, Except.error.injEq]
    | ok g =>
      obtain ⟨halike, _⟩ := lower_again ha hl hhead hlower
      simp only [reduceCtorEq, false_or, Except.ok.injEq, exists_eq', true_and]
      show (Except.ok operation >>= _) = _ ↔ _
      simp only [bind, Except.bind, hlower, halike.codeSize_eq, halike.epilogue_eq]
      rw [if_neg (by omega)]
      cases q.place depth rest (start + codeSize fragment.code)
          (if fragment.epilogue then some start else epilogue) with
      | error f => simp only [Except.error.injEq]
      | ok tail => simp only [pure, Except.pure, reduceCtorEq]

end Pass

namespace Virtual.Program

variable {p : Program} {k : Nat}

/-- The program calls an address in a slot. -/
def Calls (p : Program) (resolve : CallSite → Option Address) (k : Nat) (target : Address) : Prop :=
  ∃ id subprogram, p.operation? k = some (.call id subprogram) ∧
    resolve ⟨k, id, subprogram⟩ = some target

/-- The operation of a slot is that of the step that starts there. -/
theorem operation?_eq_some {operation : Operation} :
    p.operation? k = some operation ↔ ∃ before s after, p.steps = before ++ s :: after ∧
      s.index = k ∧ s.operation = .ok operation := by
  constructor
  · intro h
    obtain ⟨s, hs, ho⟩ := Option.bind_eq_some_iff.mp h
    obtain ⟨before, after, hsplit⟩ := List.append_of_mem (List.mem_of_find?_eq_some hs)
    have hindex := List.find?_some (p := fun s : Step => s.index == k) hs
    exact ⟨before, s, after, hsplit, beq_iff_eq.mp hindex, Step.operation?_eq_some.mp ho⟩
  · rintro ⟨before, s, after, hsplit, rfl, ho⟩
    rw [index_eq hsplit, operation?_of_split hsplit]
    exact Step.operation?_eq_some.mpr ho

/-- A call takes one slot. -/
theorem slots_of_call {before after : List Step} {s : Step} {id : Int32} {subprogram : Bool}
    (h : p.steps = before ++ s :: after) (ho : s.operation = .ok (.call id subprogram)) :
    s.slots = 1 := by
  obtain ⟨_, i, rest, _, _, hcase⟩ := stepsFrom_split h
  rcases hcase with ⟨_, _, hslots, _⟩ | ⟨_, _, next, _, _, hwide⟩ | ⟨_, hslots, _⟩
  · exact hslots
  · rw [hwide] at ho
    obtain ⟨dst, _, hload⟩ := bind_eq_ok.mp ho
    cases hload
  · exact hslots

/-- The first miss among the steps of a program is the first miss among its slots. -/
theorem firstMiss_steps {q : Pass} {base : Address} {v : Int} :
    q.FirstMiss base p.steps v ↔ ∃ k target, p.Calls q.resolve k target ∧
      (q.callPlace base k target).Misses v ∧
      ∀ j, j < k → ∀ target', p.Calls q.resolve j target' →
        (q.callPlace base j target').Reaches := by
  constructor
  · rintro ⟨before, s, after, hsplit, ⟨_, ho, id, subprogram, target, rfl, hres, hmisses⟩, hbefore⟩
    refine ⟨s.index, target, ⟨id, subprogram, ?_, hres⟩, hmisses, ?_⟩
    · exact operation?_eq_some.mpr ⟨before, s, after, hsplit, rfl, ho⟩
    · rintro j hj target' ⟨id', subprogram', hop, hres'⟩
      obtain ⟨front, x, back, hx, rfl, hox⟩ := operation?_eq_some.mp hop
      have hmem : x ∈ before := by
        have hin : x ∈ before ++ s :: after := by
          rw [← hsplit, hx]
          simp
        refine (List.mem_append.mp hin).resolve_right fun hafter => ?_
        have hle := le_index_of_mem hsplit hafter
        rw [index_eq hsplit] at hj
        omega
      exact hbefore x hmem _ hox id' subprogram' target' rfl hres'
  · rintro ⟨k, target, ⟨id, subprogram, hop, hres⟩, hmisses, hearlier⟩
    obtain ⟨before, s, after, hsplit, rfl, ho⟩ := operation?_eq_some.mp hop
    refine ⟨before, s, after, hsplit, ⟨_, ho, id, subprogram, target, rfl, hres, hmisses⟩, ?_⟩
    rintro x hx _ hox id' subprogram' target' rfl hres'
    have hlt := index_lt_of_mem hsplit hx
    rw [← index_eq hsplit] at hlt
    obtain ⟨front, back, rfl⟩ := List.append_of_mem hx
    refine hearlier x.index hlt target' ⟨id', subprogram', ?_, hres'⟩
    exact operation?_eq_some.mpr
      ⟨front, x, back ++ s :: after, by rw [hsplit, List.append_assoc]; rfl, rfl, hox⟩

open Classical in
/-- Where no arithmetic overflows, some call is the first to miss if any call is out of range. -/
theorem exists_first_miss {resolve : CallSite → Option Address} {place : Nat → Address → CallPlace}
    (hexact : ∀ k target, p.Calls resolve k target → ¬(place k target).Overflows) :
    (∃ v k target, p.Calls resolve k target ∧ (place k target).Misses v ∧
        ∀ j, j < k → ∀ target', p.Calls resolve j target' → (place j target').Reaches) ↔
      ∃ k target, p.Calls resolve k target ∧ ¬(place k target).InRange := by
  constructor
  · rintro ⟨v, k, target, hcalls, hmisses, _⟩
    exact ⟨k, target, hcalls, hmisses.2.2⟩
  · intro hfar
    obtain ⟨target, hcalls, hout⟩ := Nat.find_spec hfar
    refine ⟨_, Nat.find hfar, target, hcalls, ⟨hexact _ _ hcalls, rfl, hout⟩, ?_⟩
    intro j hj target' hcalls'
    refine ⟨hexact j target' hcalls', not_not.mp fun hout' => ?_⟩
    exact Nat.find_min hfar hj ⟨target', hcalls', hout'⟩

end Virtual.Program

/-- A pass over offsets that a pass without an address kept is out of range exactly where the first
call that does not reach its target misses it. -/
theorem Source.run_again_eq_outOfRange {s : Source} {offsets : Array Nat} {padding padding' : Bool}
    {out : PassOutput} (h : s.run offsets none padding = .ok out) (hkept : out.offsets = offsets)
    (hp : padding' = padding ∨ padding' = true) {base : Address} {v : Int} :
    s.run offsets (some base) padding' = .error (.reported (.outOfRange .callDisplacement v)) ↔
      (s.pass offsets (some base) padding').FirstMiss base s.program.steps v := by
  have ha : (s.pass offsets none padding).Akin (s.pass offsets (some base) padding') :=
    ⟨rfl, rfl, rfl⟩
  obtain ⟨_, depth, placed, hd, hplace, rfl⟩ := Pass.run_eq_ok h
  have hr : (s.pass offsets none padding).RunRepeats (s.pass offsets (some base) padding')
      (.ofPlaced (s.frame.prologue depth) placed) := ⟨rfl, hp.imp_right fun h => ⟨h, hkept⟩⟩
  have hrun : s.run offsets (some base) padding' = do
      let placed ← (s.pass offsets (some base) padding').place depth s.program.steps
        (codeSize (s.frame.prologue depth)) none
      return .ofPlaced (s.frame.prologue depth) placed := by
    -- the checks in front of the first step are those of the pass before
    unfold Source.run Pass.run at h ⊢
    split at h
    · exact absurd h (defect_ne_ok _ _)
    · rename_i hsize
      split at h
      · exact absurd h (crash_ne_ok _)
      · rename_i hlimit
        refine (if_neg hsize).trans ((if_neg hlimit).trans ?_)
        have hdepth : (s.frame.roundedDepth : Result Error UInt32) = .ok depth :=
          Frame.roundedDepth_eq_ok.mpr hd
        show s.frame.roundedDepth >>= _ = _
        rw [hdepth]
        rfl
  rw [← Pass.place_again_eq_outOfRange ha rfl rfl rfl hplace (hr.placed hplace), hrun,
    bind_pure_eq_error]
  rfl

/-- A settled layout leads to the final pass, once there is an image. -/
theorem compile_eq_emitFinal {config : Config} {program : Program}
    {resolve : CallSite → Option Address} {alloc : Nat → Result MemoryError Image}
    {settled : Settled} {size : Nat} {image : Image}
    (hlayout : (sourceOf config program resolve).layout = .ok settled)
    (hsize : imageSize settled.layout.size program.probeCount = (.ok size : Result Error Nat))
    (halloc : allocate alloc size = .ok image) (tables : Array Table) :
    compile config program resolve tables alloc =
      emitFinal (sourceOf config program resolve) tables (some size) settled image := by
  unfold compile
  dsimp only
  rw [show (⟨config, program, Frame.ofProgram program, resolve⟩ : Source) =
    sourceOf config program resolve from rfl, hlayout]
  dsimp only
  rw [hsize]
  dsimp only
  rw [halloc]

/-- A call that is out of range is found in the final pass, and nowhere behind it. -/
theorem emitFinal_eq_outOfRange {s : Source} {tables : Array Table} {asked : Option Nat}
    {settled : Settled} {image : Image} (hlayout : s.layout = .ok settled) {v : Int} :
    (emitFinal s tables asked settled image).outcome =
        .error (.reported (.outOfRange .callDisplacement v)) ↔
      s.run settled.layout.offsets (some image.base) (s.padded settled.passes) =
        .error (.reported (.outOfRange .callDisplacement v)) := by
  unfold emitFinal
  dsimp only
  cases hrun : s.run settled.layout.offsets (some image.base) (s.padded settled.passes) with
  | error f => simp only [Except.error.injEq]
  | ok out =>
    dsimp only
    rw [checkFinal_of_settled hlayout hrun]
    dsimp only
    refine iff_of_false ?_ (by simp)
    split
    · intro herror
      have hfrom : Quantity.callDisplacement.stage ∈ [Stage.count, Stage.image] :=
        finalize_failsOnly _ _ _ _ _ _ _ _ herror
      exact absurd hfrom (by decide)
    · simp

/-- A program that comes out of a final pass was emitted where its image is. -/
theorem emitFinal_emits {s : Source} {tables : Array Table} {asked : Option Nat}
    {settled : Settled} {image : Image} {c : CompiledProgram}
    (h : (emitFinal s tables asked settled image).outcome = .ok (.compiled c)) :
    (∃ e done, Emits s tables e done c) ∧ c.image.base = image.base ∧
      c.offsets = settled.layout.offsets := by
  unfold emitFinal at h
  dsimp only at h
  split at h
  · cases h
  · rename_i out hrun
    split at h
    · cases h
    · rename_i hcheck
      split at h
      · obtain ⟨e, done, he, rfl, hw, _⟩ := emits_of_finalize hrun hcheck h
        refine ⟨⟨e, done, he⟩, ?_, ?_⟩
        · rw [he.image_block.1]
          exact (writeImage_eq_ok hw).1.base_eq
        · rw [← he.offsets_eq]
          exact (checkFinal_eq_ok hcheck).2
      · cases h

/-- The slot of a call holds the call behind some bytes that hand over the counter, and the call
leads to its target. -/
structure CompiledProgram.HoldsCall (c : CompiledProgram) (k before : Nat) (target : Address) :
    Prop where
  /-- The call ends the slot. -/
  length_eq : c.offset (k + 1) = c.offset k + before + 5
  /-- The displacement leads from the end of the slot to the target. -/
  code_eq : ∃ (front : List UInt8) (rel : Int32),
    c.slotCode k = front ++ 0xE8 :: Bytes.ofInt32 rel ∧ front.length = before ∧
      ((c.image.base.toNat : Int) + c.offset (k + 1) + rel.toInt) % 2 ^ 64 = target.toNat

/-- Every call of an emitted program leads to its target. -/
theorem Emits.holdsCall {source : Source} {tables : Array Table} {e : Emission}
    {done : Installation} {c : CompiledProgram} (he : Emits source tables e done c) {k : Nat}
    {target : Address} (h : source.program.Calls source.resolve k target) :
    c.HoldsCall k source.frame.callOffset target := by
  obtain ⟨id, subprogram, hop, hres⟩ := h
  obtain ⟨before, s, after, hs, rfl, ho⟩ := Program.operation?_eq_some.mp hop
  obtain ⟨depth, operation, epilogue, fragment, _, hh⟩ :=
    PassOutput.holds_of_run he.run_eq hs fun x hx => Program.slots_pos hx
  obtain rfl : .call id subprogram = operation := Except.ok.inj (ho.symm.trans hh.operation_eq)
  have hone := Program.slots_of_call hs ho
  have hcode := he.slotCode_eq hs hone hh (by simp)
  have hstop := hh.stop_eq 1 (Nat.le_refl 1) (by omega)
  rw [he.out_offset, he.out_offset] at hstop
  obtain ⟨padding, hp⟩ := he.pass_eq
  have hframe : e.pass.frame = source.frame := by
    rw [hp]
    rfl
  have hbase : e.pass.base = some c.image.base := by
    rw [hp, he.image_block.1]
    rfl
  have hresolve : e.pass.resolve ⟨s.index, id, subprogram⟩ = some target := by
    rw [hp]
    exact hres
  obtain ⟨counter, rel, hfragment, hcounter, hleads⟩ := Pass.call_leads hbase hresolve hh.lowered
  rw [hfragment, codeSize_append, codeSize_cons, codeSize_nil, size_call, hcounter, hframe] at hstop
  rw [Program.index_eq hs] at hleads ⊢
  refine ⟨by omega, encodeAll counter, rel, ?_, ?_, ?_⟩
  · rw [hcode, hfragment, encodeAll_append]
    rfl
  · rw [length_encodeAll, hcounter, hframe]
  · rw [he.pass_offset, hframe] at hleads
    rw [hstop]
    exact hleads

/-- The place of a call of a program that has a layout and is put at an address. -/
def Layout.callPlace (layout : Layout) (frame : Frame) (base : Address) (k : Nat)
    (target : Address) : CallPlace :=
  ⟨base, layout.offset k + frame.callOffset, target⟩

/-- A compilation that comes to its final pass finds a call out of range exactly where the first
call that does not reach its target misses it. -/
theorem compile_eq_outOfRange {config : Config} {program : Program}
    {resolve : CallSite → Option Address} {alloc : Nat → Result MemoryError Image}
    {settled : Settled} {size : Nat} {image : Image}
    (hlayout : (sourceOf config program resolve).layout = .ok settled)
    (hsize : imageSize settled.layout.size program.probeCount = (.ok size : Result Error Nat))
    (halloc : allocate alloc size = .ok image) (tables : Array Table) {v : Int} :
    (compile config program resolve tables alloc).outcome =
        .error (.reported (.outOfRange .callDisplacement v)) ↔
      ∃ k target, program.Calls resolve k target ∧
        (settled.layout.callPlace (.ofProgram program) image.base k target).Misses v ∧
        ∀ j, j < k → ∀ target', program.Calls resolve j target' →
          (settled.layout.callPlace (.ofProgram program) image.base j target').Reaches := by
  obtain ⟨padding, out, hrun, hout, hpadding⟩ := Source.run_of_settled hlayout
  have hkept : out.offsets = settled.layout.offsets := congrArg Layout.offsets hout
  rw [compile_eq_emitFinal hlayout hsize halloc, emitFinal_eq_outOfRange hlayout,
    Source.run_again_eq_outOfRange hrun hkept hpadding]
  exact Program.firstMiss_steps

/-- A compilation fails for the range of a call exactly where the first call that does not reach its
target from the image is too far from it. In a program that it gives, every call ends its slot and
its displacement leads from there to its target. -/
theorem compile_call_ranges {config : Config} {program : Program}
    {resolve : CallSite → Option Address} {alloc : Nat → Result MemoryError Image}
    {settled : Settled} {size : Nat} {image : Image} (hr : program.Resolved resolve)
    (hlayout : (sourceOf config program resolve).layout = .ok settled)
    (hsize : imageSize settled.layout.size program.probeCount = (.ok size : Result Error Nat))
    (halloc : allocate alloc size = .ok image) (tables : Array Table) :
    (∀ v, (compile config program resolve tables alloc).outcome =
        .error (.reported (.outOfRange .callDisplacement v)) ↔
      ∃ k target, program.Calls resolve k target ∧
        (settled.layout.callPlace (.ofProgram program) image.base k target).Misses v ∧
        ∀ j, j < k → ∀ target', program.Calls resolve j target' →
          (settled.layout.callPlace (.ofProgram program) image.base j target').Reaches) ∧
    ((∀ k target, program.Calls resolve k target →
        ¬(settled.layout.callPlace (.ofProgram program) image.base k target).Overflows) →
      ((∃ v, (compile config program resolve tables alloc).outcome =
          .error (.reported (.outOfRange .callDisplacement v))) ↔
        ∃ k target, program.Calls resolve k target ∧
          ¬(settled.layout.callPlace (.ofProgram program) image.base k target).InRange)) ∧
    ∀ c, (compile config program resolve tables alloc).outcome = .ok (.compiled c) →
      c.image.base = image.base ∧ c.offsets = settled.layout.offsets ∧
      ∀ k id subprogram, program.operation? k = some (.call id subprogram) →
        ∃ target, resolve ⟨k, id, subprogram⟩ = some target ∧
          c.HoldsCall k (Frame.ofProgram program).callOffset target := by
  refine ⟨fun v => compile_eq_outOfRange hlayout hsize halloc tables, fun hexact => ?_,
    fun c h => ?_⟩
  · rw [← Program.exists_first_miss hexact]
    exact exists_congr fun v => compile_eq_outOfRange hlayout hsize halloc tables
  · rw [compile_eq_emitFinal hlayout hsize halloc] at h
    obtain ⟨⟨e, done, he⟩, hbase, hoffsets⟩ := emitFinal_emits h
    refine ⟨hbase, hoffsets, fun k id subprogram hop => ?_⟩
    obtain ⟨target, htarget⟩ := Option.isSome_iff_exists.mp (hr k id subprogram hop)
    exact ⟨target, htarget, he.holdsCall ⟨id, subprogram, hop, htarget⟩⟩

/-- A program behind a tail call that calls a helper and a sub-program. -/
def relayProgram : Program where
  name := "relay"
  insns := [⟨0x85, 0, 0, 0, 1⟩, ⟨0x85, 0, 1, 0, 1⟩, ⟨0x95, 0, 0, 0, 0⟩]
  tailCallReachable := true

/-- A near helper, and a sub-program at a given address. -/
def relayTargets (far : Address) (site : CallSite) : Option Address :=
  some (if site.subprogram then far else 0x5000)

/-- The program at one place: a sub-program that is near is called, and one that is far away is
reported with its distance, though the helper in front of it is near. -/
theorem compile_call_ranges_relayProgram :
    (compile {} relayProgram (relayTargets 0x800000000000) #[] fun size =>
        .ok (.blank 0x1000 size)).outcome =
      .error (.reported (.outOfRange .callDisplacement 0x7FFFFFFFEFDC)) ∧
    ∃ c, (compile {} relayProgram (relayTargets 0x7000) #[] fun size =>
        .ok (.blank 0x1000 size)).outcome = .ok (.compiled c) ∧
      c.offsets = #[12, 24, 36, 38] ∧ c.HoldsCall 0 7 0x5000 ∧ c.HoldsCall 1 7 0x7000 := by
  have hlayout : ∀ far, (sourceOf {} relayProgram (relayTargets far)).layout =
      .ok ⟨⟨#[12, 24, 36, 38], 38⟩, 2⟩ := by
    have hnear : (sourceOf {} relayProgram (relayTargets 0x7000)).layout.toOption =
        some ⟨⟨#[12, 24, 36, 38], 38⟩, 2⟩ := by decide +kernel
    exact fun far => Source.layout_of_resolved (fun _ _ _ _ => rfl) (toOption_eq_some.mp hnear)
  have hsize : imageSize 38 relayProgram.probeCount = (.ok 40 : Result Error Nat) := rfl
  have halloc : allocate (fun size => .ok (.blank 0x1000 size)) 40 =
      .ok { base := 0x1000, bytes := Array.replicate 40 trapByte } := rfl
  have hranges := fun far =>
    compile_call_ranges (fun _ _ _ _ => rfl) (hlayout far) hsize halloc #[]
  have hhelper : relayProgram.operation? 0 = some (.call 1 false) := by decide
  have hsub : relayProgram.operation? 1 = some (.call 1 true) := by decide
  refine ⟨((hranges 0x800000000000).1 _).mpr ?_, ?_⟩
  · refine ⟨1, 0x800000000000, ⟨1, true, hsub, rfl⟩, by decide +kernel, ?_⟩
    intro j hj target' hcalls
    obtain rfl : j = 0 := by omega
    obtain ⟨id, subprogram, hop, htarget⟩ := hcalls
    rw [hhelper] at hop
    cases hop
    cases htarget
    decide +kernel
  · have hsome : (compile {} relayProgram (relayTargets 0x7000) #[] fun size =>
        .ok (.blank 0x1000 size)).program?.isSome = true := by decide +kernel
    obtain ⟨c, hc⟩ := Option.isSome_iff_exists.mp hsome
    have hcompiled := Compilation.program?_eq_some.mp hc
    obtain ⟨_, hoffsets, hcalls⟩ := (hranges 0x7000).2.2 c hcompiled
    obtain ⟨target, htarget, hzero⟩ := hcalls 0 1 false hhelper
    obtain ⟨target', htarget', hone⟩ := hcalls 1 1 true hsub
    cases htarget
    cases htarget'
    exact ⟨c, hcompiled, hoffsets, hzero, hone⟩

end NativeForge
