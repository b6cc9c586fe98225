import NativeForge.Proofs.BranchTargets
import NativeForge.Proofs.SizeLimits

/-!
# Passes without padding

Without padding the lengths of jumps and conditional jumps only go down from the first pass on: a
distance that gets shorter never needs a longer form, and the first estimate is large enough for
the distances that it makes short. Exits behind the first one are different, because their distance
is measured from the epilogue of the pass itself to an offset of the pass before. As long as none
of them gets longer, no offset goes up. A later exit that gets longer moves everything behind it:
`farExitProgram` shows that this happens with the default configuration.
-/

namespace NativeForge

open X64 Virtual Target

namespace BranchForm

variable {form : BranchForm} {distance distance' : Int}

/-- No branch is longer than its long form. -/
theorem length_le_wide (h : form.narrow ≤ form.wide) (distance : Int) :
    form.length distance ≤ form.wide := by
  unfold length
  split
  · omega
  · split <;> omega

/-- A branch over a short distance is not longer than one over a short distance that is not zero. -/
theorem length_le_of_short (h8 : fitsInt8 distance = true) (h8' : fitsInt8 distance' = true)
    (hz : distance' ≠ 0) : form.length distance ≤ form.length distance' := by
  have hlength : form.length distance' = form.narrow :=
    length_of_short form (fun h => hz h.1) h8'
  by_cases hvanish : distance = 0 ∧ form.mayVanish = true
  · rw [length_of_vanish form hvanish]
    omega
  · exact Nat.le_of_eq ((length_of_short form hvanish h8).trans hlength.symm)

/-- A branch is not longer than a branch over a greater distance to the same side. -/
theorem length_le_of_nearer (hw : form.narrow ≤ form.wide)
    (h : 0 ≤ distance ∧ distance ≤ distance' ∨ distance' ≤ distance ∧ distance ≤ 0) :
    form.length distance ≤ form.length distance' := by
  by_cases h8 : fitsInt8 distance' = true
  · have hd' := fitsInt8_iff.mp h8
    have h8d : fitsInt8 distance = true := fitsInt8_iff.mpr (by omega)
    by_cases hz : distance' = 0
    · obtain rfl : distance = distance' := by omega
      exact Nat.le_refl _
    · exact length_le_of_short h8d h8 hz
  · rw [length_of_long form h8]
    exact length_le_wide hw _

end BranchForm

/-- The slot holds an exit behind the first one. -/
def Virtual.Program.isLaterExit (p : Program) (k : Nat) : Bool :=
  p.operation? k == some .exit && (p.exitBefore? k).isSome

/-- Every slot of one layout is at most as long as in another. -/
def Layout.ShorterThan (layout other : Layout) (slots : Nat) : Prop :=
  ∀ k, k < slots → layout.length k ≤ other.length k

/-- In a layout with shorter slots, slots are not farther apart. -/
theorem Layout.ShorterThan.distance_le {layout other : Layout} {slots : Nat}
    (h : layout.ShorterThan other slots) (hmono : layout.IsMonotone slots)
    (hother : other.IsMonotone slots) {i j : Nat} (hij : i ≤ j) (hj : j ≤ slots) :
    layout.offset j + other.offset i ≤ other.offset j + layout.offset i := by
  induction hij with
  | refl => omega
  | @step j hij ih =>
    have hij : i ≤ j := hij
    show layout.offset (j + 1) + other.offset i ≤ other.offset (j + 1) + layout.offset i
    have hbefore := ih (by omega)
    have hlength := h j (by omega)
    have h1 := hmono.offset_succ (show j < slots by omega)
    have h2 := hother.offset_succ (show j < slots by omega)
    omega

namespace Source

variable {s : Source} {before mid after : Layout} {base : Option Address} {padding : Bool}
  {out : PassOutput} {n k : Nat}

/-- No slot takes more than 71 bytes, and no branch more than seventeen. -/
theorem length_le (hframe : s.frame.IsUsual) (hmono : before.IsMonotone s.program.size)
    (h : s.run before.offsets base padding = .ok out) (hk : k < s.program.size) :
    out.layout.length k ≤ 71 ∧
      ∀ form, s.program.form? k = some form → out.layout.length k ≤ 17 := by
  have hbranch : ∀ form, s.program.form? k = some form → out.layout.length k ≤ 17 := by
    intro form hform
    obtain ⟨operation, _, hf⟩ := Option.bind_eq_some_iff.mp hform
    obtain ⟨_, hw, hle⟩ := Pass.form?_bounds hf
    obtain ⟨_, distance, _, _, hsized⟩ := sized_of_form h hmono hk hform
    have hlength := BranchForm.length_le_wide (Nat.le_of_lt hw) distance
    rcases hsized.allows with hs | hs | hs <;> omega
  refine ⟨?_, hbranch⟩
  show out.offset (k + 1) - out.offset k ≤ 71
  rcases PassOutput.lowers_of_run h hk with ⟨_, hz⟩ | ⟨depth, operation, f, hf⟩
  · omega
  · have hle := Pass.codeSize_lower_le_limit hframe hf.lowered
    have hsucc := hf.offset_succ
    omega

/-- The distance of a jump or a conditional jump in two passes over one program: to the same slot,
by the offsets of each, unless it is the jump to itself. -/
theorem reach_cases {p q : Pass} {epilogue epilogue' : Option Nat} {operation : Operation}
    {distance distance' : Int} {form : BranchForm} {known : Bool}
    (hform : Pass.form? known operation = some form) (hexit : operation ≠ .exit)
    (hsize : p.offsets.size = s.program.size + 1)
    (h : p.reach k epilogue operation = .ok distance)
    (h' : q.reach k epilogue' operation = .ok distance') :
    (distance = -2 ∧ distance' = -2) ∨
      ∃ target, target ≤ s.program.size ∧ (p.offset (k + 1) : Int) + distance = p.offset target ∧
        (q.offset (k + 1) : Int) + distance' = q.offset target := by
  have hjump : ∀ off, p.jumpDistance k off = .ok distance → q.jumpDistance k off = .ok distance' →
      ∃ target, target ≤ s.program.size ∧ (p.offset (k + 1) : Int) + distance = p.offset target ∧
        (q.offset (k + 1) : Int) + distance' = q.offset target := by
    intro off hd hd'
    obtain ⟨target, htarget, hlt, heq⟩ := Pass.jumpDistance_eq_ok hd
    obtain ⟨target', htarget', _, heq'⟩ := Pass.jumpDistance_eq_ok hd'
    obtain rfl : target = target' := by omega
    exact ⟨target, by omega, heq, heq'⟩
  cases operation with
  | jump off =>
    rw [Pass.reach_jump] at h h'
    by_cases ho : off = -1
    · rw [if_pos ho] at h h'
      exact .inl ⟨(Except.ok.inj h).symm, (Except.ok.inj h').symm⟩
    · rw [if_neg ho] at h h'
      exact .inr (hjump off h h')
  | branch cond size dst src off => exact .inr (hjump off h h')
  | exit => exact absurd rfl hexit
  | _ => cases hform

/-- Of the distances between slots of one length of 64 bytes or more, only those over at most two
slots backwards and one slot forwards are short. -/
theorem slots_of_short_distance {estimate start target : Nat} {distance : Int}
    (he : 64 ≤ estimate)
    (h : ((start * estimate : Nat) : Int) + distance = (target * estimate : Nat))
    (hd : -128 ≤ distance ∧ distance ≤ 127) :
    target ≤ start + 1 ∧ start ≤ target + 2 ∧ (target ≠ start → distance ≠ 0) := by
  refine ⟨?_, ?_, ?_⟩
  · refine Nat.le_of_not_lt fun hfar => ?_
    have hmul := Nat.mul_le_mul_right estimate (show start + 2 ≤ target by omega)
    rw [Nat.add_mul] at hmul
    omega
  · refine Nat.le_of_not_lt fun hfar => ?_
    have hmul := Nat.mul_le_mul_right estimate (show target + 3 ≤ start by omega)
    rw [Nat.add_mul] at hmul
    omega
  · rintro hne rfl
    have hmul : start * estimate = target * estimate := by omega
    exact hne (Nat.eq_of_mul_eq_mul_right (by omega) hmul).symm

/-- The lengths of a jump or a conditional jump behind two passes without padding: those of the
distances to its target by the offsets that the two passes work from. -/
theorem branch_lengths {form : BranchForm} {operation : Operation}
    (hb : s.layoutAfter n = .ok before) (hm : s.layoutAfter (n + 1) = .ok mid)
    (ha : s.layoutAfter (n + 2) = .ok after) (hp : s.padded n = false)
    (hp' : s.padded (n + 1) = false) (hk : k < s.program.size)
    (hform : s.program.form? k = some form) (hop : s.program.operation? k = some operation)
    (hexit : operation ≠ .exit) :
    ∃ distance distance', mid.length k = form.length distance ∧
      after.length k = form.length distance' ∧
      ((distance = -2 ∧ distance' = -2) ∨ ∃ target, target ≤ s.program.size ∧
        (before.offset (k + 1) : Int) + distance = before.offset target ∧
        (mid.offset (k + 1) : Int) + distance' = mid.offset target) := by
  have hmono := layoutAfter_isMonotone hb
  have hmono' := layoutAfter_isMonotone hm
  obtain ⟨before', out, hb', hr, rfl⟩ := layoutAfter_succ_eq_ok hm
  obtain rfl : before = before' := Except.ok.inj (hb.symm.trans hb')
  obtain ⟨mid', out', hm', hr', rfl⟩ := layoutAfter_succ_eq_ok ha
  obtain rfl : out.layout = mid' := Except.ok.inj (hm.symm.trans hm')
  obtain ⟨op, distance, hop1, hreach, hsized⟩ := sized_of_form hr hmono hk hform
  obtain ⟨op', distance', hop2, hreach', hsized'⟩ := sized_of_form hr' hmono' hk hform
  obtain rfl : operation = op := Option.some.inj (hop.symm.trans hop1)
  obtain rfl : operation = op' := Option.some.inj (hop.symm.trans hop2)
  have hf : Pass.form? (s.program.exitBefore? k).isSome operation = some form := by
    rw [Program.form?, hop] at hform
    exact hform
  have hsize : before.offsets.size = s.program.size + 1 := (layout_of_run hr).2.2.2
  exact ⟨distance, distance', hsized.unpadded hp, hsized'.unpadded hp',
    reach_cases hf hexit hsize hreach hreach'⟩

/-- In the second pass no jump and no conditional jump is longer than in the first one: a distance
that the estimate makes short is the distance over at most two slots. -/
theorem second_length_le {form : BranchForm} {operation : Operation}
    (he : 64 ≤ s.config.initialEstimate) (hframe : s.frame.IsUsual)
    (hb : s.layoutAfter 0 = .ok before) (hm : s.layoutAfter 1 = .ok mid)
    (ha : s.layoutAfter 2 = .ok after) (hp : s.padded 0 = false) (hp' : s.padded 1 = false)
    (hk : k < s.program.size) (hform : s.program.form? k = some form)
    (hop : s.program.operation? k = some operation) (hexit : operation ≠ .exit) :
    after.length k ≤ mid.length k := by
  have hmono := layoutAfter_isMonotone hm
  have hlengths : ∀ j, j < s.program.size →
      mid.length j ≤ 71 ∧ ∀ form, s.program.form? j = some form → mid.length j ≤ 17 := by
    intro j hj
    obtain ⟨before', out, hb', hr, rfl⟩ := layoutAfter_succ_eq_ok hm
    exact length_le hframe (layoutAfter_isMonotone hb') hr hj
  have hw : form.narrow ≤ form.wide := by
    obtain ⟨_, _, hf⟩ := Option.bind_eq_some_iff.mp hform
    exact Nat.le_of_lt (Pass.form?_bounds hf).2.1
  obtain ⟨distance, distance', hold, hnew, hreach⟩ :=
    branch_lengths hb hm ha hp hp' hk hform hop hexit
  rcases hreach with ⟨rfl, rfl⟩ | ⟨target, ht, heq, heq'⟩
  · omega
  · have hshort := (hlengths k hk).2 form hform
    rw [hold, hnew]
    by_cases h8 : fitsInt8 distance = true
    · have hd := fitsInt8_iff.mp h8
      rw [offset_of_initial hb (by omega), offset_of_initial hb ht] at heq
      obtain ⟨hforward, hback, hne⟩ := slots_of_short_distance he heq hd
      have hsucc := hmono.offset_succ hk
      by_cases hzero : target = k + 1
      · -- to the next slot: over nothing in both passes
        subst hzero
        obtain rfl : distance = 0 := by omega
        obtain rfl : distance' = 0 := by omega
        exact Nat.le_refl _
      · refine BranchForm.length_le_of_short (fitsInt8_iff.mpr ?_) h8 (hne (by omega))
        rcases (by omega : target = k + 2 ∨ target = k ∨ target + 1 = k) with rfl | rfl | hprev
        · have hnext := (hlengths (k + 1) (by omega)).1
          have hsucc' := hmono.offset_succ (show k + 1 < s.program.size by omega)
          rw [show k + 1 + 1 = k + 2 by omega] at hsucc'
          omega
        · omega
        · have hlt : target < s.program.size := by omega
          have hother := (hlengths target hlt).1
          have hsucc' := hmono.offset_succ hlt
          rw [hprev] at hsucc'
          omega
    · rw [BranchForm.length_of_long form h8]
      exact BranchForm.length_le_wide hw _

/-- In a further pass no jump and no conditional jump is longer, if the pass before made no slot
longer. -/
theorem next_length_le {form : BranchForm} {operation : Operation}
    (hb : s.layoutAfter n = .ok before) (hm : s.layoutAfter (n + 1) = .ok mid)
    (ha : s.layoutAfter (n + 2) = .ok after) (hp : s.padded n = false)
    (hp' : s.padded (n + 1) = false) (hshorter : mid.ShorterThan before s.program.size)
    (hk : k < s.program.size) (hform : s.program.form? k = some form)
    (hop : s.program.operation? k = some operation) (hexit : operation ≠ .exit) :
    after.length k ≤ mid.length k := by
  have hmono := layoutAfter_isMonotone hb
  have hmono' := layoutAfter_isMonotone hm
  have hw : form.narrow ≤ form.wide := by
    obtain ⟨_, _, hf⟩ := Option.bind_eq_some_iff.mp hform
    exact Nat.le_of_lt (Pass.form?_bounds hf).2.1
  obtain ⟨distance, distance', hold, hnew, hreach⟩ :=
    branch_lengths hb hm ha hp hp' hk hform hop hexit
  rw [hold, hnew]
  rcases hreach with ⟨rfl, rfl⟩ | ⟨target, ht, heq, heq'⟩
  · exact Nat.le_refl _
  · refine BranchForm.length_le_of_nearer hw ?_
    rcases Nat.le_total (k + 1) target with hto | hto
    · have hle := hshorter.distance_le hmono' hmono hto ht
      have hup := hmono' _ _ hto ht
      omega
    · have hle := hshorter.distance_le hmono' hmono hto (by omega)
      have hup := hmono' _ _ hto (by omega)
      omega

/-- A pass makes no slot longer, if it makes no jump, no conditional jump and no later exit
longer. -/
theorem shorterThan_of_branches
    (hexits : ∀ k, k < s.program.size → s.program.isLaterExit k = true → ¬s.Widens (n + 1) k)
    (hm : s.layoutAfter (n + 1) = .ok mid) (ha : s.layoutAfter (n + 2) = .ok after)
    (hbranches : ∀ k form operation, k < s.program.size → s.program.form? k = some form →
      s.program.operation? k = some operation → operation ≠ .exit →
      after.length k ≤ mid.length k) : after.ShorterThan mid s.program.size := by
  intro k hk
  cases hform : s.program.form? k with
  | none =>
    obtain ⟨_, _, _, hr, rfl⟩ := layoutAfter_succ_eq_ok hm
    obtain ⟨_, _, _, hr', rfl⟩ := layoutAfter_succ_eq_ok ha
    exact Nat.le_of_eq (length_of_form_none hr hr' hk hform)
  | some form =>
    obtain ⟨operation, hop, hf⟩ := Option.bind_eq_some_iff.mp hform
    by_cases hexit : operation = .exit
    · subst hexit
      have hlater : s.program.isLaterExit k = true := by
        unfold Program.isLaterExit
        rw [hop]
        cases he : s.program.exitBefore? k with
        | none =>
          rw [he] at hf
          cases hf
        | some e => rfl
      exact Nat.le_of_not_lt fun hlt => hexits k hk hlater ⟨mid, after, hm, ha, hlt⟩
    · exact hbranches k form operation hk hform hop hexit

/-- As long as no later exit gets longer, no slot gets longer from the first pass on. -/
theorem shorterThan_next (he : 64 ≤ s.config.initialEstimate)
    (hframe : s.frame.IsUsual) (hp : n + 1 < s.config.paddingPasses)
    (hexits : ∀ m k, 1 ≤ m → m ≤ n + 1 → k < s.program.size → s.program.isLaterExit k = true →
      ¬s.Widens m k)
    (hm : s.layoutAfter (n + 1) = .ok mid) (ha : s.layoutAfter (n + 2) = .ok after) :
    after.ShorterThan mid s.program.size := by
  induction n generalizing mid after with
  | zero =>
    obtain ⟨before, _, hb, _, _⟩ := layoutAfter_succ_eq_ok hm
    refine shorterThan_of_branches (hexits 1 · (by omega) (by omega)) hm ha ?_
    intro k form operation hk hform hop hexit
    exact second_length_le he hframe hb hm ha (decide_eq_false (by omega))
      (decide_eq_false (by omega)) hk hform hop hexit
  | succ n ih =>
    obtain ⟨before, _, hb, _, _⟩ := layoutAfter_succ_eq_ok hm
    have hshorter := ih (by omega) (fun m k h1 h2 => hexits m k h1 (by omega)) hb hm
    refine shorterThan_of_branches (hexits (n + 2) · (by omega) (by omega)) hm ha ?_
    intro k form operation hk hform hop hexit
    exact next_length_le hb hm ha (decide_eq_false (by omega)) (decide_eq_false (by omega))
      hshorter hk hform hop hexit

/-- The pass with a number puts a slot farther back. -/
def Rises (s : Source) (n k : Nat) : Prop :=
  s.Between n fun before after => before.offset k < after.offset k

instance (s : Source) (n k : Nat) : Decidable (s.Rises n k) :=
  inferInstanceAs (Decidable (s.Between n _))

/-- A pass behind the first one that makes no slot longer puts no slot farther back. -/
theorem not_rises_of_shorterThan
    (h : ∀ mid after, s.layoutAfter (n + 1) = .ok mid → s.layoutAfter (n + 2) = .ok after →
      after.ShorterThan mid s.program.size)
    (hk : k ≤ s.program.size) : ¬s.Rises (n + 1) k := by
  rintro ⟨mid, after, hm, ha, hlt⟩
  have hle := (h mid after hm ha).distance_le (layoutAfter_isMonotone ha)
    (layoutAfter_isMonotone hm) (Nat.zero_le k) hk
  have hzero : after.offset 0 = mid.offset 0 := offset_zero hm ha
  omega

end Source

/-- With an estimate of 64 bytes or more, as long as no pass without padding makes an exit behind the
first one longer, no such pass behind the first puts a slot farther back. A program with one exit is
such a case, whatever its jumps are. -/
theorem offsets_shrink_unless_exit_grows (config : Config) (program : Program)
    (resolve : CallSite → Option Address) (n : Nat) (he : 64 ≤ config.initialEstimate)
    (hn : n < config.paddingPasses)
    (hexits : ∀ m k, 1 ≤ m → m ≤ n → k < program.size → program.isLaterExit k = true →
      ¬(sourceOf config program resolve).Widens m k) :
    ∀ m k, 1 ≤ m → m ≤ n → k ≤ program.size →
      ¬(sourceOf config program resolve).Rises m k := by
  intro m k hm hmn hk
  obtain ⟨m, rfl⟩ : ∃ i, m = i + 1 := ⟨m - 1, by omega⟩
  refine Source.not_rises_of_shorterThan (fun mid after hmid hafter => ?_) hk
  exact Source.shorterThan_next he (Frame.isUsual_ofProgram program)
    (by show m + 1 < config.paddingPasses; omega) (fun i j h1 h2 => hexits i j h1 (by omega)) hmid
    hafter

/-- The second pass over `jumpingProgram` brings its end nearer, and the exit behind the first one
is not longer than before: none of the first passes puts a slot farther back. -/
theorem offsets_shrink_jumpingProgram :
    jumpingProgram.isLaterExit 5 = true ∧
    ((sourceOf {} jumpingProgram fun _ => none).Between 1 fun before after =>
      after.offset 6 < before.offset 6) ∧
    ∀ m k, 1 ≤ m → m ≤ 3 → k ≤ 6 → ¬(sourceOf {} jumpingProgram fun _ => none).Rises m k := by
  have hexits : ∀ m, m ≤ 3 → ∀ k, k < 6 →
      ¬(sourceOf {} jumpingProgram fun _ => none).Widens m k := by
    decide +kernel
  refine ⟨by decide, by decide +kernel, ?_⟩
  exact offsets_shrink_unless_exit_grows {} jumpingProgram (fun _ => none) 3 (by decide) (by decide)
    fun m k _ hm hk _ => hexits m hm k hk

/-- A hundred and sixty-six tail calls through a table, each longer than the estimate of 64 bytes,
an exit, two more tail calls and a second exit. -/
def farExitProgram : Program where
  name := "far exit"
  insns := List.replicate 166 ⟨0xF5, 6, 7, 0, 0⟩ ++ ⟨0x95, 8, 9, 0, 0⟩ ::
    List.replicate 2 ⟨0xF5, 6, 7, 0, 0⟩ ++ [⟨0x95, 0, 0, 0, 0⟩]
  stackDepth := 8

/-- The first pass measures the second exit of `farExitProgram` from the estimate, where it is near
the epilogue; the second pass makes it longer and puts the end of the program farther back. -/
theorem farExitProgram_rises :
    (sourceOf {} farExitProgram fun _ => none).Rises 1 170 := by
  decide +kernel

end NativeForge
