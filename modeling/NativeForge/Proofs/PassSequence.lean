import NativeForge.Proofs.SlotLengths

/-!
# The sequence of passes

`Source.layoutAfter` lists the layouts of a compilation: the first estimate, then the layout of one
pass after the other. A compilation runs through this list until two layouts in a row are the same.
-/

namespace NativeForge

open X64 Virtual

namespace Source

/-- The layout after a number of passes; before the first pass it is the estimate. -/
def layoutAfter (s : Source) : Nat → Result Error Layout
  | 0 => initialLayout s.program.size s.config.initialEstimate
  | n + 1 => do
    let before ← s.layoutAfter n
    let out ← s.run before.offsets none (s.padded n)
    return out.layout

variable {s : Source} {n : Nat} {layout : Layout}

/-- A layout after a pass is the layout of the pass over the layout before. -/
theorem layoutAfter_succ_eq_ok (h : s.layoutAfter (n + 1) = .ok layout) :
    ∃ before out, s.layoutAfter n = .ok before ∧
      s.run before.offsets none (s.padded n) = .ok out ∧ layout = out.layout := by
  obtain ⟨before, hb, h⟩ := bind_eq_ok.mp h
  obtain ⟨out, ho, h⟩ := bind_eq_ok.mp h
  exact ⟨before, out, hb, ho, (pure_eq_ok.mp h).symm⟩

/-- A pass over a layout gives the next one. -/
theorem layoutAfter_succ_of_run {out : PassOutput} (h : s.layoutAfter n = .ok layout)
    (hr : s.run layout.offsets none (s.padded n) = .ok out) :
    s.layoutAfter (n + 1) = .ok out.layout :=
  bind_eq_ok.mpr ⟨layout, h, bind_eq_ok.mpr ⟨out, hr, rfl⟩⟩

/-- The pass with a number and the passes before it succeed, and the layouts before and behind it are
related. -/
def Between (s : Source) (n : Nat) (R : Layout → Layout → Prop) : Prop :=
  ∃ before after, s.layoutAfter n = .ok before ∧ s.layoutAfter (n + 1) = .ok after ∧ R before after

instance (s : Source) (n : Nat) (R : Layout → Layout → Prop) [DecidableRel R] :
    Decidable (s.Between n R) :=
  match hb : s.layoutAfter n, ha : s.layoutAfter (n + 1) with
  | .ok before, .ok after =>
    decidable_of_iff (R before after)
      ⟨fun h => ⟨before, after, hb, ha, h⟩, fun ⟨before', after', hb', ha', h⟩ => by
        obtain rfl : before = before' := Except.ok.inj (hb.symm.trans hb')
        obtain rfl : after = after' := Except.ok.inj (ha.symm.trans ha')
        exact h⟩
  | .error _, _ => isFalse fun ⟨_, _, hb', _⟩ => by
    rw [hb] at hb'
    cases hb'
  | .ok _, .error _ => isFalse fun ⟨_, _, _, ha', _⟩ => by
    rw [ha] at ha'
    cases ha'

/-- The pass with a number makes a slot longer. -/
def Widens (s : Source) (n k : Nat) : Prop :=
  s.Between n fun before after => before.length k < after.length k

instance (s : Source) (n k : Nat) : Decidable (s.Widens n k) :=
  inferInstanceAs (Decidable (s.Between n _))

/-- The layout before the first pass gives every slot the estimated length. -/
theorem offset_of_initial {slots estimate : Nat}
    (h : initialLayout slots estimate = (.ok layout : Result Error Layout)) {k : Nat}
    (hk : k ≤ slots) : layout.offset k = (k + 1) * estimate := by
  obtain ⟨_, _, h⟩ := bind_eq_ok.mp h
  obtain rfl := pure_eq_ok.mp h
  rw [Layout.offset, Array.getD_eq_getD_getElem?, Array.getElem?_map, Array.getElem?_range,
    if_pos (by omega)]
  rfl

/-- Every layout has one offset per slot and one for the end, and it never goes down. -/
theorem layoutAfter_isMonotone (h : s.layoutAfter n = .ok layout) :
    layout.IsMonotone s.program.size := by
  cases n with
  | zero =>
    intro i j hij hj
    rw [offset_of_initial h hj, offset_of_initial h (by omega)]
    exact Nat.mul_le_mul_right _ (by omega)
  | succ n =>
    obtain ⟨before, out, _, hr, rfl⟩ := layoutAfter_succ_eq_ok h
    exact (layout_of_run hr).1

/-- All passes put the first slot behind the prologue. -/
theorem offset_zero {m : Nat} {other : Layout} (h : s.layoutAfter (n + 1) = .ok layout)
    (h' : s.layoutAfter (m + 1) = .ok other) : other.offset 0 = layout.offset 0 := by
  obtain ⟨_, out, _, hr, rfl⟩ := layoutAfter_succ_eq_ok h
  obtain ⟨_, out', _, hr', rfl⟩ := layoutAfter_succ_eq_ok h'
  obtain ⟨_, _, _, depth, _, hd, hz, _⟩ :=
    PassOutput.offsets_of_run hr (fun x hx => Program.slots_pos hx)
  obtain ⟨_, _, _, depth', _, hd', hz', _⟩ :=
    PassOutput.offsets_of_run hr' (fun x hx => Program.slots_pos hx)
  obtain rfl := hd'.unique hd
  exact hz'.trans hz.symm

/-- Layouts of passes that give every slot one length give it one offset. -/
theorem offset_eq_of_length {m : Nat} {other : Layout} (h : s.layoutAfter (n + 1) = .ok layout)
    (h' : s.layoutAfter (m + 1) = .ok other)
    (hlength : ∀ k, k < s.program.size → other.length k = layout.length k) {k : Nat}
    (hk : k ≤ s.program.size) : other.offset k = layout.offset k := by
  induction k with
  | zero => exact offset_zero h h'
  | succ k ih =>
    have hlt : k < s.program.size := by omega
    rw [(layoutAfter_isMonotone h).offset_succ hlt, (layoutAfter_isMonotone h').offset_succ hlt,
      ih (by omega), hlength k hlt]

/-- Layouts of passes that give every slot one length are the same. -/
theorem layout_ext {m : Nat} {other : Layout} (h : s.layoutAfter (n + 1) = .ok layout)
    (h' : s.layoutAfter (m + 1) = .ok other)
    (hlength : ∀ k, k < s.program.size → other.length k = layout.length k) : other = layout := by
  have hk : ∀ k, k ≤ s.program.size → other.offset k = layout.offset k :=
    fun k => offset_eq_of_length h h' hlength
  obtain ⟨_, out, _, hr, rfl⟩ := layoutAfter_succ_eq_ok h
  obtain ⟨_, out', _, hr', rfl⟩ := layoutAfter_succ_eq_ok h'
  obtain ⟨_, hsize, hend, _⟩ := layout_of_run hr
  obtain ⟨_, hsize', hend', _⟩ := layout_of_run hr'
  have hoffsets : out'.offsets = out.offsets := by
    apply Array.ext_getElem?
    intro k
    by_cases hlt : k ≤ s.program.size
    · have hoff : out'.offsets.getD k 0 = out.offsets.getD k 0 := hk k hlt
      simp only [Array.getD_eq_getD_getElem?] at hoff
      rw [Array.getElem?_eq_getElem (by omega), Array.getElem?_eq_getElem (by omega)] at hoff ⊢
      exact congrArg some hoff
    · rw [Array.getElem?_eq_none (by omega), Array.getElem?_eq_none (by omega)]
  have hlast := hk s.program.size (Nat.le_refl _)
  have hcode : out'.layout.size = out.layout.size := by omega
  exact Layout.mk.injEq .. ▸ ⟨hoffsets, hcode⟩

/-- One pass, and what is decided behind it. -/
theorem settle_succ (remaining number : Nat) (previous : Layout) :
    s.settle (remaining + 1) number previous =
      (s.run previous.offsets none (s.padded number) >>= fun out =>
        if out.layout = previous then .ok ⟨out.layout, number + 1⟩
        else s.settle remaining (number + 1) out.layout) :=
  rfl

/-- Passes that settled repeated a layout. -/
theorem settle_eq_ok {remaining number : Nat} {previous : Layout} {settled : Settled}
    (hp : s.layoutAfter number = .ok previous)
    (h : s.settle remaining number previous = .ok settled) :
    ∃ m, settled.passes = m + 1 ∧ m < number + remaining ∧
      s.layoutAfter m = .ok settled.layout ∧ s.layoutAfter (m + 1) = .ok settled.layout := by
  induction remaining generalizing number previous with
  | zero => exact absurd h (defect_ne_ok _ _)
  | succ remaining ih =>
    rw [settle_succ] at h
    obtain ⟨out, ho, h⟩ := bind_eq_ok.mp h
    have hnext := layoutAfter_succ_of_run hp ho
    by_cases hsame : out.layout = previous
    · rw [if_pos hsame] at h
      obtain rfl := Except.ok.inj h
      refine ⟨number, rfl, by omega, ?_, hnext⟩
      rw [hp]
      exact congrArg _ hsame.symm
    · rw [if_neg hsame] at h
      obtain ⟨m, hm, hlt, hrest⟩ := ih hnext h
      exact ⟨m, hm, by omega, hrest⟩

/-- Passes that did not settle failed in one of them, or never repeated a layout. -/
theorem settle_eq_error {remaining number : Nat} {previous : Layout} {f : Failure Error}
    (hp : s.layoutAfter number = .ok previous)
    (h : s.settle remaining number previous = .error f) :
    (∃ m before, s.layoutAfter m = .ok before ∧
      s.run before.offsets none (s.padded m) = .error f) ∨
    (f = .reported (.internal (.notConverged (number + remaining))) ∧
      ∀ m, number ≤ m → m < number + remaining → ∃ before after,
        s.layoutAfter m = .ok before ∧ s.layoutAfter (m + 1) = .ok after ∧ after ≠ before) := by
  induction remaining generalizing number previous with
  | zero =>
    cases h
    exact .inr ⟨rfl, fun m h1 h2 => by omega⟩
  | succ remaining ih =>
    rw [settle_succ] at h
    rcases bind_eq_error.mp h with h | ⟨out, ho, h⟩
    · exact .inl ⟨number, previous, hp, h⟩
    · have hnext := layoutAfter_succ_of_run hp ho
      by_cases hsame : out.layout = previous
      · rw [if_pos hsame] at h
        cases h
      · rw [if_neg hsame] at h
        rcases ih hnext h with hfail | ⟨rfl, hall⟩
        · exact .inl hfail
        · refine .inr ⟨by rw [show number + 1 + remaining = number + (remaining + 1) by omega],
            fun m h1 h2 => ?_⟩
          by_cases hm : m = number
          · subst hm
            exact ⟨previous, out.layout, hp, hnext, hsame⟩
          · exact hall m (by omega) (by omega)

/-- A program whose layout settled repeated a layout. -/
theorem layout_eq_ok {settled : Settled} (h : s.layout = .ok settled) :
    ∃ m, settled.passes = m + 1 ∧ m < s.config.maxPasses ∧
      s.layoutAfter m = .ok settled.layout ∧ s.layoutAfter (m + 1) = .ok settled.layout := by
  unfold Source.layout at h
  split at h
  · exact absurd h (defect_ne_ok _ _)
  · obtain ⟨start, hs, h⟩ := bind_eq_ok.mp h
    have hstart : s.layoutAfter 0 = .ok start := hs
    obtain ⟨m, hm, hlt, hrest⟩ := settle_eq_ok hstart h
    exact ⟨m, hm, by omega, hrest⟩

/-- A program whose layout did not settle is empty or too large for an estimate, a pass over it
failed, or all layouts differed from the ones before. -/
theorem layout_eq_error {f : Failure Error} (h : s.layout = .error f) :
    f = .reported (.internal .emptyProgram) ∨ f = .crash ∨
    (∃ m before, s.layoutAfter m = .ok before ∧
      s.run before.offsets none (s.padded m) = .error f) ∨
    (f = .reported (.internal (.notConverged s.config.maxPasses)) ∧
      ∀ m, m < s.config.maxPasses → ∃ before after,
        s.layoutAfter m = .ok before ∧ s.layoutAfter (m + 1) = .ok after ∧ after ≠ before) := by
  unfold Source.layout at h
  split at h
  · cases h
    exact .inl rfl
  · rcases bind_eq_error.mp h with h | ⟨start, hs, h⟩
    · refine .inr (.inl ?_)
      rcases bind_eq_error.mp h with h | ⟨_, _, h⟩
      · unfold word64 at h
        split at h <;> cases h
        rfl
      · cases h
    · have hstart : s.layoutAfter 0 = .ok start := hs
      rcases settle_eq_error hstart h with hfail | ⟨rfl, hall⟩
      · exact .inr (.inr (.inl hfail))
      · refine .inr (.inr (.inr ⟨by rw [Nat.zero_add], fun m hm => ?_⟩))
        exact hall m (by omega) (by omega)

end Source

end NativeForge
