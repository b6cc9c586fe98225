import Mathlib.Data.Finset.Card
import NativeForge.Proofs.FragmentSizes
import NativeForge.Proofs.PassSequence

/-!
# Passes with padding

In a pass with padding every slot keeps its length or takes the long form of its branch, so each
branch grows at most once over all such passes, and the passes settle as soon as there are more of
them than branches. Padding itself never fails. The one danger is a jump that was left out and now
goes over something; it does not arise, because slots without length stay without length from the
first pass on, and a jump is left out only over such slots.
-/

namespace NativeForge

open X64 Virtual Target

namespace BranchForm.Sized

variable {form : BranchForm} {padding : Bool} {span size : Nat} {distance : Int}

/-- The lengths that a branch can have. -/
theorem size_cases (h : form.Sized padding span distance size) :
    (size = 0 ∧ distance = 0 ∧ form.mayVanish = true) ∨ size = form.narrow ∨ size = form.wide := by
  rcases h.allows with hs | hs | hs
  · rw [hs, BranchForm.length]
    split
    · rename_i hz
      exact .inl ⟨rfl, hz⟩
    · split
      · exact .inr (.inl rfl)
      · exact .inr (.inr rfl)
  · exact .inr (.inl hs)
  · exact .inr (.inr hs)

/-- With padding a branch keeps its length or takes the long form. -/
theorem padded_cases (h : form.Sized true span distance size) : size = span ∨ size = form.wide := by
  by_cases hw : form.length distance = form.wide
  · exact .inr (h.far rfl hw)
  · exact .inl (h.near rfl hw).1

end BranchForm.Sized

/-- The rules that an accepted configuration keeps. -/
theorem fault?_eq_none {config : Config} (h : config.fault? = none) :
    1 ≤ config.paddingPasses ∧ config.paddingPasses ≤ config.maxPasses ∧
      config.maxInsnSize / 2 ≤ config.initialEstimate := by
  unfold Config.fault? at h
  split at h
  · cases h
  · split at h
    · cases h
    · split at h
      · cases h
      · omega

/-- Slots without length in one layout have none in another. -/
def Layout.FlatIn (layout other : Layout) (slots : Nat) : Prop :=
  ∀ k, k < slots → layout.length k = 0 → other.length k = 0

/-- Two slots at one offset stay at one offset, if the slots between them stay without length. -/
theorem Layout.FlatIn.offset_eq {layout other : Layout} {slots : Nat}
    (hflat : layout.FlatIn other slots) (hmono : layout.IsMonotone slots)
    (hother : other.IsMonotone slots) {i j : Nat} (hij : i ≤ j) (hj : j ≤ slots)
    (h : layout.offset j = layout.offset i) : other.offset j = other.offset i := by
  induction j, hij using Nat.le_induction with
  | base => rfl
  | succ j hij ih =>
    have h1 := hmono i j hij (by omega)
    have h2 := hmono j (j + 1) (by omega) hj
    have hzero : other.length j = 0 := hflat j (by omega) (by unfold Layout.length; omega)
    have hsucc := hother.offset_succ (show j < slots by omega)
    have hbefore := ih (by omega) (by omega)
    omega

/-- A jump over nothing stays one, if slots at one offset stay at one offset. -/
theorem Pass.reach_jump_zero {p q : Pass} {k : Nat} {epilogue epilogue' : Option Nat} {off : Int16}
    {distance : Int}
    (hkeep : ∀ target, target < p.offsets.size → p.offset (k + 1) = p.offset target →
      q.offset (k + 1) = q.offset target)
    (h : p.reach k epilogue (.jump off) = .ok 0)
    (h' : q.reach k epilogue' (.jump off) = .ok distance) : distance = 0 := by
  rw [reach_jump] at h h'
  by_cases ho : off = -1
  · rw [if_pos ho] at h
    cases h
  · rw [if_neg ho] at h h'
    obtain ⟨target, htarget, hlt, heq⟩ := jumpDistance_eq_ok h
    obtain ⟨target', htarget', _, heq'⟩ := jumpDistance_eq_ok h'
    obtain rfl : target = target' := by omega
    have hsame := hkeep target hlt (by omega)
    omega

namespace Source

variable {s : Source} {before : Layout} {base : Option Address} {padding : Bool} {out : PassOutput}
  {n k : Nat}

/-- The lengths of the forms of a branch. -/
theorem form?_bounds {program : Program} {form : BranchForm} (h : program.form? k = some form) :
    2 ≤ form.narrow ∧ form.narrow < form.wide ∧ form.wide ≤ 17 := by
  obtain ⟨_, _, h⟩ := Option.bind_eq_some_iff.mp h
  exact Pass.form?_bounds h

/-- A branch that was left out goes over nothing, also by the offsets of the pass that left it
out. -/
theorem reach_of_length_zero {form : BranchForm} (h : s.run before.offsets base padding = .ok out)
    (hmono : before.IsMonotone s.program.size)
    (hflat : before.FlatIn out.layout s.program.size) (hk : k < s.program.size)
    (hform : s.program.form? k = some form) (hz : out.layout.length k = 0) :
    form.mayVanish = true ∧
      ∀ operation base' padding' epilogue distance, s.program.operation? k = some operation →
        (s.pass out.offsets base' padding').reach k epilogue operation = .ok distance →
        distance = 0 := by
  obtain ⟨hn, hw, _⟩ := form?_bounds hform
  obtain ⟨operation, distance, hop, hreach, hsized⟩ := sized_of_form h hmono hk hform
  obtain ⟨_, rfl, hvanish⟩ : out.layout.length k = 0 ∧ distance = 0 ∧ form.mayVanish = true := by
    rcases hsized.size_cases with hc | hc | hc
    · exact hc
    · omega
    · omega
  refine ⟨hvanish, ?_⟩
  intro operation' base' padding' epilogue distance' hop' hreach'
  obtain rfl : operation = operation' := Option.some.inj (hop.symm.trans hop')
  -- only an unconditional jump may be left out
  obtain ⟨off, rfl⟩ : ∃ off, operation = .jump off := by
    rw [Program.form?, hop, Option.bind_some] at hform
    cases operation with
    | jump off => exact ⟨off, rfl⟩
    | branch cond size dst src off =>
      cases hform
      cases hvanish
    | exit =>
      rw [Pass.form?_exit] at hform
      split at hform
      · cases hform
        cases hvanish
      · cases hform
    | _ => cases hform
  obtain ⟨hmono', _, _, hsize⟩ := layout_of_run h
  refine Pass.reach_jump_zero ?_ hreach hreach'
  intro target htarget heq
  have hle : target ≤ s.program.size := by
    have hlt : target < before.offsets.size := htarget
    omega
  rcases Nat.le_total target (k + 1) with hto | hto
  · exact hflat.offset_eq hmono hmono' hto (by omega) heq
  · exact (hflat.offset_eq hmono hmono' hto hle heq.symm).symm

/-- Slots without length stay without length in the next pass. -/
theorem flatIn_next {after : Layout} (hc : s.config.fault? = none)
    (hb : s.layoutAfter n = .ok before) (ha : s.layoutAfter (n + 1) = .ok after) :
    before.FlatIn after s.program.size := by
  induction n generalizing before after with
  | zero =>
    intro k hk hz
    obtain ⟨start, out, hstart, hr, rfl⟩ := layoutAfter_succ_eq_ok ha
    obtain rfl : start = before := Except.ok.inj (hstart.symm.trans hb)
    have hmono := layoutAfter_isMonotone hb
    obtain ⟨_, _, hestimate⟩ := fault?_eq_none hc
    -- the estimate is zero, so no fragment may have more than one byte, and none has one
    have hzero : s.config.initialEstimate = 0 := by
      have h0 := offset_of_initial hb (show k ≤ s.program.size by omega)
      have h1 := offset_of_initial hb (show k + 1 ≤ s.program.size by omega)
      have hsucc := hmono.offset_succ hk
      rw [hz, h0, h1, Nat.add_mul (k + 1) 1, Nat.one_mul] at hsucc
      omega
    rcases PassOutput.lowers_of_run hr hk with ⟨_, hoff⟩ | ⟨depth, operation, f, hf⟩
    · show out.offset (k + 1) - out.offset k = 0
      omega
    · have hle : codeSize f.code ≤ s.config.maxInsnSize := hf.codeSize_le
      have hlength : out.layout.length k = codeSize f.code := by
        have hsucc := hf.offset_succ
        show out.offset (k + 1) - out.offset k = codeSize f.code
        omega
      cases hform : s.program.form? k with
      | none =>
        have hne : codeSize f.code ≠ 1 := by
          refine Pass.codeSize_ne_one ?_ hf.lowered
          rw [Option.isSome_map]
          rw [Program.form?, hf.operation_eq] at hform
          exact hform
        omega
      | some form =>
        obtain ⟨hn, hw, _⟩ := form?_bounds hform
        obtain ⟨_, _, _, _, hsized⟩ := sized_of_form hr hmono hk hform
        rcases hsized.size_cases with ⟨hs, _⟩ | hs | hs
        · exact hs
        · omega
        · omega
  | succ n ih =>
    intro k hk hz
    obtain ⟨start, mid, hstart, hr, rfl⟩ := layoutAfter_succ_eq_ok hb
    obtain ⟨mid', out, hmid, hr', rfl⟩ := layoutAfter_succ_eq_ok ha
    obtain rfl : mid.layout = mid' := Except.ok.inj (hb.symm.trans hmid)
    have hflat := ih hstart hb
    cases hform : s.program.form? k with
    | none =>
      rw [length_of_form_none hr hr' hk hform]
      exact hz
    | some form =>
      obtain ⟨hn, hw, _⟩ := form?_bounds hform
      obtain ⟨hvanish, hreach⟩ :=
        reach_of_length_zero hr (layoutAfter_isMonotone hstart) hflat hk hform hz
      obtain ⟨operation, distance, hop, hd, hsized⟩ :=
        sized_of_form hr' (layoutAfter_isMonotone hb) hk hform
      obtain rfl := hreach operation _ _ _ distance hop hd
      have hlength := BranchForm.length_of_vanish form ⟨rfl, hvanish⟩
      cases hp : s.padded (n + 1) with
      | false => rw [hsized.unpadded hp, hlength]
      | true => rw [(hsized.near hp (by omega)).1, hz]

/-- In a layout of a pass every branch can be filled up to its length. -/
theorem allows_length {form : BranchForm} {operation : Operation} {epilogue : Option Nat}
    {distance : Int} (hc : s.config.fault? = none) (hb : s.layoutAfter (n + 1) = .ok before)
    (hk : k < s.program.size) (hform : s.program.form? k = some form)
    (hop : s.program.operation? k = some operation)
    (hreach : (s.pass before.offsets base padding).reach k epilogue operation = .ok distance) :
    form.Allows distance (before.length k) := by
  obtain ⟨start, out, hstart, hr, rfl⟩ := layoutAfter_succ_eq_ok hb
  have hmono := layoutAfter_isMonotone hstart
  obtain ⟨_, _, _, _, hsized⟩ := sized_of_form hr hmono hk hform
  rcases hsized.size_cases with ⟨hz, _⟩ | hs | hs
  · obtain ⟨hvanish, hzero⟩ :=
      reach_of_length_zero hr hmono (flatIn_next hc hstart hb) hk hform hz
    obtain rfl := hzero operation base padding epilogue distance hop hreach
    rw [hz]
    exact .inl (BranchForm.length_of_vanish form ⟨rfl, hvanish⟩).symm
  · exact .inr (.inl hs)
  · exact .inr (.inr hs)

end Source

namespace Pass

variable {p : Pass} {depth : UInt32}

/-- Steps that could not be placed failed at one of them: it means nothing, it could not be lowered,
or it is too long. -/
theorem place_eq_error {steps : List Step} {start : Nat} {epilogue : Option Nat}
    {f : Failure Error} (h : p.place depth steps start epilogue = .error f) :
    ∃ before s after placed, steps = before ++ s :: after ∧
      p.place depth before start epilogue = .ok placed ∧
      ((∃ d, s.operation = .error d ∧ f = .reported (.internal d)) ∨
        (∃ operation, s.operation = .ok operation ∧
          p.lower depth s.index (epilogueAfter epilogue placed) operation = .error f) ∨
        ∃ size, f = .reported (.internal (.instructionTooLong s.index size p.maxInsnSize))) := by
  induction steps generalizing start epilogue with
  | nil => cases h
  | cons s rest ih =>
    rw [place] at h
    rcases bind_eq_error.mp h with h | ⟨operation, ho, h⟩
    · refine ⟨[], s, rest, [], rfl, rfl, .inl ?_⟩
      cases hs : s.operation with
      | ok operation =>
        rw [hs] at h
        cases h
      | error d =>
        rw [hs] at h
        cases h
        exact ⟨d, rfl, rfl⟩
    · have ho := mapError_eq_ok.mp ho
      rcases bind_eq_error.mp h with h | ⟨fragment, hl, h⟩
      · exact ⟨[], s, rest, [], rfl, rfl, .inr (.inl ⟨operation, ho, h⟩)⟩
      · dsimp only at h
        by_cases hm : p.maxInsnSize < codeSize fragment.code
        · rw [if_pos hm] at h
          cases h
          exact ⟨[], s, rest, [], rfl, rfl, .inr (.inr ⟨_, rfl⟩)⟩
        · rw [if_neg hm] at h
          rcases bind_eq_error.mp h with h | ⟨_, _, h⟩
          · obtain ⟨before, x, after, placed, rfl, hp, hfail⟩ := ih h
            exact ⟨s :: before, x, after, _, rfl,
              place_cons.mpr ⟨operation, fragment, placed, ho, hl, by omega, hp, rfl⟩, hfail⟩
          · cases h

/-- Whether an epilogue is known before a step is a matter of the program. -/
theorem isSome_epilogueAfter {program : Program} {before after : List Step} {start : Nat}
    {placed : List Placed} (hs : program.steps = before ++ after)
    (h : p.place depth before start none = .ok placed) :
    (epilogueAfter none placed).isSome = (program.exitBefore? (slotCount before)).isSome := by
  rcases epilogueAfter_none h with ⟨hn, hx⟩ | ⟨front, x, back, pf, rfl, hfront, hx, _, he⟩
  · rw [hn, Program.exitBefore?_eq_none hs hx]
  · rw [he, Program.exitBefore?_eq_some hs hfront hx]
    rfl

end Pass

namespace Source

variable {s : Source} {before : Layout} {base : Option Address} {padding : Bool} {out : PassOutput}
  {n k : Nat}

/-- Padding never fails: a pass that pads works from the layout of a pass. -/
theorem not_isPaddingFailure_of_run {f : Failure Error} (hc : s.config.fault? = none)
    (hb : s.layoutAfter n = .ok before) (hn : padding = true → 1 ≤ n)
    (h : s.run before.offsets base padding = .error f) : ¬Pass.IsPaddingFailure f := by
  intro hf
  obtain ⟨depth, hp⟩ : ∃ depth, (s.pass before.offsets base padding).place depth s.program.steps
      (codeSize (s.frame.prologue depth)) none = .error f := by
    obtain ⟨count, index, rfl⟩ := hf
    rw [Source.run, Pass.run] at h
    split at h
    · cases h
    · split at h
      · cases h
      · rcases bind_eq_error.mp h with h | ⟨depth, _, h⟩
        · have hround : FailsOnly (Failure.From []) (s.frame.roundedDepth : Result Error UInt32) :=
            failsOnly_roundedDepth _
          exact absurd (hround _ h) List.not_mem_nil
        · rcases bind_eq_error.mp h with h | ⟨_, _, h⟩
          · exact ⟨depth, h⟩
          · cases h
  obtain ⟨front, x, back, placed, hs, hfront, hfail⟩ := Pass.place_eq_error hp
  have hx : x ∈ s.program.steps := by simp [hs]
  rcases hfail with ⟨d, hd, rfl⟩ | ⟨operation, ho, hl⟩ | ⟨size, rfl⟩
  · have hslot : d.stage = .slot := Program.steps_failsOnly hx d hd
    obtain ⟨count, index, hf⟩ := hf
    cases hf
    cases hslot
  · have hindex := Program.index_eq hs
    have hslots := Program.slots_pos hx
    have hcount := Program.slotCount_steps s.program
    rw [hs, slotCount_append, slotCount_cons] at hcount
    have hk : x.index < s.program.size := by omega
    have hmono : (s.pass before.offsets base padding).offset x.index ≤
        (s.pass before.offsets base padding).offset (x.index + 1) :=
      layoutAfter_isMonotone hb _ _ (by omega) (by omega)
    obtain ⟨form, distance, hform, hreach, hpadding, _, hnot⟩ := Pass.not_allows_lower hmono hl hf
    obtain ⟨m, rfl⟩ : ∃ m, n = m + 1 := ⟨n - 1, by have := hn hpadding; omega⟩
    have hop : s.program.operation? x.index = some operation := by
      rw [hindex, Program.operation?_of_split hs, Step.operation?_eq_some]
      exact ho
    have hform : s.program.form? x.index = some form := by
      rw [Program.form?, hop, Option.bind_some, hindex, ← Pass.isSome_epilogueAfter hs hfront]
      exact hform
    exact hnot (allows_length hc hb hk hform hop hreach)
  · obtain ⟨count, index, hf⟩ := hf
    cases hf

/-- In a pass with padding every slot keeps its length or takes the long form of its branch. -/
theorem padded_length (hb : s.layoutAfter n = .ok before) (hn : 1 ≤ n)
    (h : s.run before.offsets base true = .ok out) (hk : k < s.program.size) :
    out.layout.length k = before.length k ∨
      ∃ form, s.program.form? k = some form ∧ before.length k < form.wide ∧
        out.layout.length k = form.wide := by
  obtain ⟨m, rfl⟩ : ∃ m, n = m + 1 := ⟨n - 1, by omega⟩
  have hmono := layoutAfter_isMonotone hb
  obtain ⟨start, mid, hstart, hr, rfl⟩ := layoutAfter_succ_eq_ok hb
  cases hform : s.program.form? k with
  | none => exact .inl (length_of_form_none hr h hk hform)
  | some form =>
    obtain ⟨_, hw, _⟩ := form?_bounds hform
    obtain ⟨_, _, _, _, hsized⟩ := sized_of_form h hmono hk hform
    rcases hsized.padded_cases with hs | hs
    · exact .inl hs
    · obtain ⟨_, _, _, _, hold⟩ := sized_of_form hr (layoutAfter_isMonotone hstart) hk hform
      by_cases hwide : mid.layout.length k = form.wide
      · exact .inl (hs.trans hwide.symm)
      · refine .inr ⟨form, rfl, ?_, hs⟩
        rcases hold.size_cases with ⟨hc, _⟩ | hc | hc
        · omega
        · omega
        · exact absurd hc hwide

end Source

/-- The slots of a program that hold a branch. -/
def Virtual.Program.branches (p : Program) : Finset Nat :=
  (Finset.range p.size).filter fun k => p.isBranch k

/-- The branches are the slots that hold one. -/
theorem Virtual.Program.mem_branches {p : Program} {k : Nat} :
    k ∈ p.branches ↔ k < p.size ∧ p.isBranch k = true := by
  simp [Program.branches]

namespace Source

variable {s : Source} {before after : Layout} {n k : Nat}

/-- The branches that have their long form in a layout. -/
def wideBranches (s : Source) (layout : Layout) : Finset Nat :=
  s.program.branches.filter fun k =>
    (s.program.form? k).any fun form => layout.length k == form.wide

/-- A branch has its long form exactly when its length is the long one. -/
theorem mem_wideBranches {layout : Layout} :
    k ∈ s.wideBranches layout ↔ k < s.program.size ∧
      ∃ form, s.program.form? k = some form ∧ layout.length k = form.wide := by
  rw [wideBranches, Finset.mem_filter, Program.mem_branches, Option.any_eq_true]
  constructor
  · rintro ⟨⟨hk, _⟩, form, hform, hwide⟩
    exact ⟨hk, form, hform, by simpa using hwide⟩
  · rintro ⟨hk, form, hform, hwide⟩
    exact ⟨⟨hk, by rw [Program.isBranch_eq, hform]; rfl⟩, form, hform, by simpa using hwide⟩

/-- The passes from a number on pad. -/
theorem padded_of_le (h : s.config.paddingPasses ≤ n) : s.padded n = true := decide_eq_true h

/-- Long branches stay long from one padded pass to the next. -/
theorem wideBranches_subset (hn : 1 ≤ n) (hp : s.config.paddingPasses ≤ n)
    (hb : s.layoutAfter n = .ok before) (ha : s.layoutAfter (n + 1) = .ok after) :
    s.wideBranches before ⊆ s.wideBranches after := by
  intro k hk
  obtain ⟨hlt, form, hform, hwide⟩ := mem_wideBranches.mp hk
  obtain ⟨before', out, hb', hr, rfl⟩ := layoutAfter_succ_eq_ok ha
  obtain rfl : before' = before := Except.ok.inj (hb'.symm.trans hb)
  rw [padded_of_le hp] at hr
  refine mem_wideBranches.mpr ⟨hlt, form, hform, ?_⟩
  rcases padded_length hb hn hr hlt with hs | ⟨form', hform', _, hs⟩
  · rw [hs, hwide]
  · rw [hs, ← Option.some.inj (hform.symm.trans hform')]

/-- A padded pass that changes the layout makes a branch long. -/
theorem card_wideBranches_lt (hn : 1 ≤ n) (hp : s.config.paddingPasses ≤ n)
    (hb : s.layoutAfter n = .ok before) (ha : s.layoutAfter (n + 1) = .ok after)
    (hne : after ≠ before) : (s.wideBranches before).card < (s.wideBranches after).card := by
  have hsubset := wideBranches_subset hn hp hb ha
  apply Finset.card_lt_card
  refine ⟨hsubset, fun hback => hne ?_⟩
  obtain ⟨m, rfl⟩ : ∃ m, n = m + 1 := ⟨n - 1, by omega⟩
  obtain ⟨before', out, hb', hr, rfl⟩ := layoutAfter_succ_eq_ok ha
  obtain rfl : before' = before := Except.ok.inj (hb'.symm.trans hb)
  rw [padded_of_le hp] at hr
  -- no branch became long, so every slot kept its length
  have hlength : ∀ k, k < s.program.size → out.layout.length k = before'.length k := by
    intro k hk
    rcases padded_length hb hn hr hk with hs | ⟨form, hform, hlt, hs⟩
    · exact hs
    · obtain ⟨_, form', hform', hwide⟩ :=
        mem_wideBranches.mp (hback (mem_wideBranches.mpr ⟨hk, form, hform, hs⟩))
      rw [Option.some.inj (hform.symm.trans hform')] at hlt
      omega
  exact layout_ext hb ha hlength

/-- Long branches stay long over all padded passes. -/
theorem wideBranches_mono {m : Nat} (hn : 1 ≤ n) (hp : s.config.paddingPasses ≤ n) (hnm : n ≤ m)
    (hb : s.layoutAfter n = .ok before) (ha : s.layoutAfter m = .ok after) :
    s.wideBranches before ⊆ s.wideBranches after := by
  induction m, hnm using Nat.le_induction generalizing after with
  | base =>
    obtain rfl : before = after := Except.ok.inj (hb.symm.trans ha)
    exact Finset.Subset.refl _
  | succ m hnm ih =>
    obtain ⟨mid, _, hmid, _, _⟩ := layoutAfter_succ_eq_ok ha
    exact (ih hmid).trans (wideBranches_subset (by omega) (by omega) hmid ha)

/-- A branch grows in at most one padded pass. -/
theorem Widens.eq {i j : Nat} (hi : 1 ≤ i) (hj : 1 ≤ j) (hpi : s.config.paddingPasses ≤ i)
    (hpj : s.config.paddingPasses ≤ j) (hk : k < s.program.size) (h : s.Widens i k)
    (h' : s.Widens j k) : i = j := by
  -- a branch that grows is long behind the pass and was not long before it
  have hlong : ∀ {m : Nat}, 1 ≤ m → s.config.paddingPasses ≤ m → s.Widens m k →
      ∃ old new, s.layoutAfter m = .ok old ∧ s.layoutAfter (m + 1) = .ok new ∧
        k ∉ s.wideBranches old ∧ k ∈ s.wideBranches new := by
    intro m hm hpm hw
    obtain ⟨old, new, ho, hnew, hlt⟩ := hw
    obtain ⟨old', out, ho', hr, rfl⟩ := layoutAfter_succ_eq_ok hnew
    obtain rfl : old' = old := Except.ok.inj (ho'.symm.trans ho)
    rw [padded_of_le hpm] at hr
    rcases padded_length ho hm hr hk with hs | ⟨form, hform, hshort, hs⟩
    · omega
    · refine ⟨old', _, ho, hnew, fun hmem => ?_, mem_wideBranches.mpr ⟨hk, form, hform, hs⟩⟩
      obtain ⟨_, form', hform', hwide⟩ := mem_wideBranches.mp hmem
      rw [Option.some.inj (hform.symm.trans hform')] at hshort
      omega
  obtain ⟨oldI, newI, hoi, hni, hshortI, hlongI⟩ := hlong hi hpi h
  obtain ⟨oldJ, newJ, hoj, hnj, hshortJ, hlongJ⟩ := hlong hj hpj h'
  rcases Nat.lt_trichotomy i j with hlt | heq | hgt
  · exact absurd (wideBranches_mono (by omega) (by omega) hlt hni hoj hlongI) hshortJ
  · exact heq
  · exact absurd (wideBranches_mono (by omega) (by omega) hgt hnj hoi hlongJ) hshortI

/-- As long as layouts keep changing, every padded pass makes one more branch long. -/
theorem le_card_wideBranches {m : Nat} (hc : s.config.fault? = none)
    (hall : ∀ i, i < m → ∃ before after, s.layoutAfter i = .ok before ∧
      s.layoutAfter (i + 1) = .ok after ∧ after ≠ before)
    (hm : s.config.paddingPasses ≤ m) (ha : s.layoutAfter m = .ok after) :
    m - s.config.paddingPasses ≤ (s.wideBranches after).card := by
  obtain ⟨hone, _, _⟩ := fault?_eq_none hc
  induction m, hm using Nat.le_induction generalizing after with
  | base => omega
  | succ m hm ih =>
    obtain ⟨old, new, ho, hnew, hne⟩ := hall m (by omega)
    obtain rfl : new = after := Except.ok.inj (hnew.symm.trans ha)
    have hbefore := ih (fun i hi => hall i (by omega)) ho
    have hgrow := card_wideBranches_lt (by omega) hm ho hnew hne
    omega

end Source

/-- In passes with padding no slot gets shorter and every slot grows at most once. So a compilation
that has one pass more than there are branches behind its first padded pass never gives up on its
layout, and no compilation fails with its padding. -/
theorem padded_passes_settle (config : Config) (program : Program)
    (resolve : CallSite → Option Address) (hc : config.fault? = none) :
    (∀ n before base out, config.paddingPasses ≤ n →
      (sourceOf config program resolve).layoutAfter n = .ok before →
      (sourceOf config program resolve).run before.offsets base true = .ok out →
      ∀ k, k < program.size → before.length k ≤ out.layout.length k ∧
        (program.isBranch k = false → out.layout.length k = before.length k)) ∧
    (∀ k i j, k < program.size → config.paddingPasses ≤ i → config.paddingPasses ≤ j →
      (sourceOf config program resolve).Widens i k →
      (sourceOf config program resolve).Widens j k → i = j) ∧
    (config.paddingPasses + program.branches.card + 1 ≤ config.maxPasses →
      ∀ tables alloc passes, (compile config program resolve tables alloc).outcome ≠
        .error (.reported (.internal (.notConverged passes)))) ∧
    ∀ tables alloc count index, (compile config program resolve tables alloc).outcome ≠
      .error (.reported (.internal (.unexpectedPadding count index))) := by
  obtain ⟨hone, _, _⟩ := fault?_eq_none hc
  refine ⟨?_, ?_, ?_, ?_⟩
  · intro n before base out hn hb hr k hk
    have hstart : 1 ≤ n := by omega
    rcases Source.padded_length hb hstart hr hk with hs | ⟨form, hform, hlt, hs⟩
    · exact ⟨by omega, fun _ => hs⟩
    · refine ⟨by omega, fun hbranch => ?_⟩
      have hform : program.form? k = some form := hform
      rw [Program.isBranch_eq, hform] at hbranch
      cases hbranch
  · intro k i j hk hi hj h h'
    exact h.eq (by omega) (by omega) hi hj hk h'
  · intro hroom tables alloc passes h
    rcases compile_eq_error h with h | ⟨_, _, _, h⟩ | ⟨_, _, _, _, _, h⟩ | h
    · rcases Source.layout_eq_error h with h | h | ⟨_, _, _, h⟩ | ⟨_, hall⟩
      · cases h
      · cases h
      · have hfrom := Pass.run_failsOnly _ program _ h
        simp [Failure.From, Defect.stage] at hfrom
      · obtain ⟨m, hm⟩ : ∃ m, config.maxPasses = m + 1 := ⟨config.maxPasses - 1, by omega⟩
        obtain ⟨_, after, _, ha, _⟩ := hall m (by show m < config.maxPasses; omega)
        have hcard := Source.le_card_wideBranches hc hall
          (show config.paddingPasses ≤ config.maxPasses by omega) (hm ▸ ha)
        have hle : ((sourceOf config program resolve).wideBranches after).card ≤
            program.branches.card :=
          Finset.card_le_card (Finset.filter_subset _ _)
        have hcard : config.maxPasses - config.paddingPasses ≤ _ := hcard
        omega
    · have hfrom := Pass.run_failsOnly _ program _ h
      simp [Failure.From, Defect.stage] at hfrom
    · unfold checkFinal at h
      split at h
      · cases h
      · split at h <;> cases h
    · simp [Failure.From, Defect.stage] at h
  · intro tables alloc count index h
    have hpadding : Pass.IsPaddingFailure (.reported (.internal (.unexpectedPadding count index))) :=
      ⟨count, index, rfl⟩
    rcases compile_eq_error h with h | ⟨settled, base, hs, h⟩ | ⟨_, _, _, _, _, h⟩ | h
    · rcases Source.layout_eq_error h with h | h | ⟨m, before, hb, h⟩ | ⟨h, _⟩
      · cases h
      · cases h
      · refine Source.not_isPaddingFailure_of_run hc hb (fun hp => ?_) h hpadding
        have hle : config.paddingPasses ≤ m := of_decide_eq_true hp
        omega
      · cases h
    · obtain ⟨m, _, _, _, hlast⟩ := Source.layout_eq_ok hs
      exact Source.not_isPaddingFailure_of_run hc hlast (fun _ => by omega) h hpadding
    · unfold checkFinal at h
      split at h
      · cases h
      · split at h <;> cases h
    · simp [Failure.From, Defect.stage] at h

/-- Padding starts with the second pass, and the estimate is less than what a store of an immediate
takes. -/
def tightConfig : Config :=
  { maxPasses := 4, paddingPasses := 1, initialEstimate := 10, maxInsnSize := 20 }

/-- A conditional jump over twelve stores of immediates. -/
def widenedProgram : Program where
  name := "widened"
  insns := ⟨0x15, 1, 0, 12, 0⟩ :: List.replicate 12 ⟨0x7A, 1, 0, 0x1000, 7⟩ ++ [⟨0x95, 0, 0, 0, 0⟩]

/-- The conditional jump is short by the estimate and grows in the first padded pass; no other pass
makes it longer, and the passes settle. -/
theorem padded_passes_settle_widenedProgram :
    tightConfig.fault? = none ∧
    (sourceOf tightConfig widenedProgram fun _ => none).Widens 1 0 ∧
    (∀ j, 1 ≤ j → (sourceOf tightConfig widenedProgram fun _ => none).Widens j 0 → 1 = j) ∧
    ∀ tables alloc passes,
      (compile tightConfig widenedProgram (fun _ => none) tables alloc).outcome ≠
        .error (.reported (.internal (.notConverged passes))) := by
  have hc : tightConfig.fault? = none := by decide
  have hwidens : (sourceOf tightConfig widenedProgram fun _ => none).Widens 1 0 := by
    decide +kernel
  obtain ⟨_, honce, hsettles, _⟩ := padded_passes_settle tightConfig widenedProgram _ hc
  refine ⟨hc, hwidens, ?_, ?_⟩
  · intro j hj h
    exact honce 0 1 j (by decide) (by decide) hj hwidens h
  · exact hsettles (by decide)

end NativeForge
