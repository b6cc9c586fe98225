import Mathlib.Data.List.Forall2
import Mathlib.Data.List.Perm.Subperm
import NativeForge.Proofs.BranchTargets
import NativeForge.Proofs.FragmentSizes

/-!
# Fault-tolerant loads

The slots of a program that have the operation code of a fault-tolerant load are counted before the
first pass; the loads themselves are found slot by slot in a pass. The two agree unless the second
slot of a wide load, which no pass reads as an operation, has such an operation code. Every load
that a pass finds is recorded at the offset of its slot, with the length of the slot and the
register slot of its destination.
-/

namespace NativeForge

open X64 Virtual

namespace Virtual

/-- The slots with the operation code of a fault-tolerant load, the first slot having number
`index`. -/
def probeSlotsFrom (index : Nat) : List Insn → List Nat
  | [] => []
  | i :: rest =>
    if i.isProbeLoad then index :: probeSlotsFrom (index + 1) rest
    else probeSlotsFrom (index + 1) rest

/-- As many slots are listed as are counted. -/
theorem length_probeSlotsFrom (index : Nat) (insns : List Insn) :
    (probeSlotsFrom index insns).length = insns.countP Insn.isProbeLoad := by
  induction insns generalizing index with
  | nil => rfl
  | cons i rest ih =>
    rw [probeSlotsFrom, List.countP_cons]
    split
    · rw [List.length_cons, ih]
    · rw [ih, Nat.add_zero]

/-- Which slots are listed. -/
theorem mem_probeSlotsFrom {index k : Nat} {insns : List Insn} :
    k ∈ probeSlotsFrom index insns ↔
      ∃ i, index ≤ k ∧ insns[k - index]? = some i ∧ i.isProbeLoad = true := by
  induction insns generalizing index with
  | nil => simp [probeSlotsFrom]
  | cons i rest ih =>
    have htail : index + 1 ≤ k → (i :: rest)[k - index]? = rest[k - (index + 1)]? := by
      intro hle
      rw [show k - index = k - (index + 1) + 1 by omega, List.getElem?_cons_succ]
    constructor
    · intro h
      have hcases : k = index ∧ i.isProbeLoad = true ∨ k ∈ probeSlotsFrom (index + 1) rest := by
        rw [probeSlotsFrom] at h
        split at h
        · rename_i hi
          exact (List.mem_cons.mp h).imp (fun hk => ⟨hk, hi⟩) id
        · exact .inr h
      rcases hcases with ⟨rfl, hi⟩ | hk
      · exact ⟨i, Nat.le_refl k, by simp, hi⟩
      · obtain ⟨j, hle, hj, hprobe⟩ := ih.mp hk
        exact ⟨j, by omega, by rw [htail hle, hj], hprobe⟩
    · rintro ⟨j, hle, hj, hprobe⟩
      rw [probeSlotsFrom]
      by_cases hk : k = index
      · subst hk
        rw [Nat.sub_self, List.getElem?_cons_zero, Option.some.injEq] at hj
        rw [hj, if_pos hprobe]
        exact List.mem_cons_self ..
      · have hle : index + 1 ≤ k := by omega
        have hmem : k ∈ probeSlotsFrom (index + 1) rest :=
          ih.mpr ⟨j, hle, by rw [← htail hle, hj], hprobe⟩
        split
        · exact List.mem_cons_of_mem _ hmem
        · exact hmem

/-- The slots are listed in order. -/
theorem pairwise_probeSlotsFrom (index : Nat) (insns : List Insn) :
    (probeSlotsFrom index insns).Pairwise (· < ·) := by
  induction insns generalizing index with
  | nil => exact .nil
  | cons i rest ih =>
    rw [probeSlotsFrom]
    split
    · refine .cons (fun k hk => ?_) (ih (index + 1))
      obtain ⟨_, hle, _⟩ := mem_probeSlotsFrom.mp hk
      omega
    · exact ih (index + 1)

/-- The register that a step fills, if it is a fault-tolerant load. -/
def Step.probe? (s : Step) : Option VReg := s.operation?.bind Operation.probe?

/-- A step that means an operation fills the register that the operation fills. -/
theorem Step.probe?_of_ok {s : Step} {operation : Operation} (h : s.operation = .ok operation) :
    s.probe? = operation.probe? := by
  rw [probe?, Step.operation?_eq_some.mpr h, Option.bind_some]

namespace Program

/-- The slots of a program with the operation code of a fault-tolerant load, in order. -/
def probeSlots (p : Program) : List Nat := probeSlotsFrom 0 p.insns

/-- The steps of a program that are fault-tolerant loads, in order. -/
def probeSteps (p : Program) : List Step := p.steps.filter fun s => s.probe?.isSome

/-- No second slot of a wide load has the operation code of a fault-tolerant load. -/
def HidesNoProbe (p : Program) : Prop :=
  ∀ k i next, p.Visits k i → i.isWideLoad = true → p.insns[k + 1]? = some next →
    next.isProbeLoad = false

/-- Hidden loads are found by looking behind every step that opens a wide load. -/
instance (p : Program) : Decidable p.HidesNoProbe :=
  decidable_of_iff (∀ s ∈ p.steps, ∀ i ∈ p.insns[s.index]?, i.isWideLoad = true →
      ∀ next ∈ p.insns[s.index + 1]?, next.isProbeLoad = false)
    ⟨fun h _ i next hv hw hnext => by
      obtain ⟨⟨s, hs, rfl⟩, hi⟩ := hv
      exact h s hs i hi hw next hnext,
    fun h s hs i hi hw next hnext => h s.index i next ⟨⟨s, hs, rfl⟩, hi⟩ hw hnext⟩

/-- As many slots are listed as the program counts. -/
theorem length_probeSlots (p : Program) : p.probeSlots.length = p.probeCount :=
  length_probeSlotsFrom 0 p.insns

/-- The listed slots have the operation code of a fault-tolerant load. -/
theorem mem_probeSlots {p : Program} {k : Nat} :
    k ∈ p.probeSlots ↔ ∃ i, p.insns[k]? = some i ∧ i.isProbeLoad = true := by
  unfold probeSlots
  rw [mem_probeSlotsFrom]
  simp

end Program

namespace Insn

variable {i : Insn} {operation : Operation}

/-- No arithmetic slot is a fault-tolerant load. -/
theorem probe?_of_arithmetic {size : OpSize} (h : i.arithmetic size = .ok operation) :
    operation.probe? = none := by
  obtain ⟨dst, _, hreads⟩ := reads_of_arithmetic h
  cases hreads <;> rfl

/-- No slot that stores a register is a fault-tolerant load. -/
theorem probe?_of_storing (h : i.storing = .ok operation) : operation.probe? = none := by
  obtain ⟨base, src, _, rfl | ⟨size, ⟨op, rfl⟩ | ⟨op, rfl⟩⟩⟩ := storing_eq_ok h <;> rfl

/-- No jump slot is a fault-tolerant load. -/
theorem probe?_of_jumping (h : i.jumping = .ok operation) : operation.probe? = none := by
  unfold jumping at h
  repeat' split at h
  · cases h; rfl
  · cases h; rfl
  · cases h; rfl
  · cases h; rfl
  · obtain ⟨_, _, _, _, _, _, rfl⟩ := branching_eq_ok h
    rfl

/-- A load slot is a fault-tolerant load in two of its modes. -/
theorem probe?_of_loading (h : i.loading = .ok operation) :
    operation.probe?.isSome = (i.mode == 0x20 || i.mode == 0x40) ∧
      ∀ dst, operation.probe? = some dst → register i.dst = .ok dst := by
  obtain ⟨dst, hd, h⟩ := bind_eq_ok.mp h
  obtain ⟨base, _, h⟩ := bind_eq_ok.mp h
  dsimp only at h
  split at h
  · rename_i hmode
    cases h
    rw [hmode]
    exact ⟨rfl, nofun⟩
  · split at h
    · rename_i hmode
      cases h
      rw [hmode.1]
      exact ⟨rfl, nofun⟩
    · split at h
      · rename_i hmode
        have hprobe : (i.mode == 0x20 || i.mode == 0x40) = true := by simpa using hmode
        rw [hprobe]
        repeat' split at h
        all_goals cases h
        · exact ⟨rfl, fun dst' hdst => by rw [hd, ← Option.some.inj hdst]⟩
        · exact ⟨rfl, fun dst' hdst => by rw [hd, ← Option.some.inj hdst]⟩
      · cases h

/-- A slot that means an operation is a fault-tolerant load exactly when its operation code says
so, and then it fills the register of its destination field. -/
theorem probe?_of_operation (h : i.operation = .ok operation) :
    operation.probe?.isSome = i.isProbeLoad ∧
      ∀ dst, operation.probe? = some dst → register i.dst = .ok dst := by
  unfold isProbeLoad
  by_cases hcls : i.cls = 1
  · rw [Insn.operation, if_pos hcls] at h
    rw [hcls]
    exact probe?_of_loading h
  · have hnone : operation.probe? = none := by
      rw [Insn.operation, if_neg hcls] at h
      repeat' split at h
      · unfold storingImm at h
        split at h
        · obtain ⟨base, _, h⟩ := bind_eq_ok.mp h
          cases h
          rfl
        · cases h
      · exact probe?_of_storing h
      · exact probe?_of_arithmetic h
      · exact probe?_of_jumping h
      · obtain ⟨_, _, _, _, _, _, rfl⟩ := branching_eq_ok h
        rfl
      · exact probe?_of_arithmetic h
      · cases h
    have hfalse : (i.cls == 1) = false := beq_eq_false_iff_ne.mpr hcls
    rw [hnone, hfalse]
    exact ⟨rfl, fun dst hdst => absurd hdst.symm (Option.some_ne_none dst)⟩

/-- A slot that opens a wide load is no fault-tolerant load. -/
theorem not_isProbeLoad_of_isWideLoad (h : i.isWideLoad = true) : i.isProbeLoad = false := by
  unfold isWideLoad at h
  unfold isProbeLoad cls
  rw [beq_iff_eq.mp h]
  rfl

/-- A wide load is no fault-tolerant load. -/
theorem probe?_of_wideOperation {next : Insn} {index slots : Nat} :
    (⟨index, slots, i.wideOperation next⟩ : Step).probe? = none := by
  cases ho : i.wideOperation next with
  | error d => rfl
  | ok operation =>
    obtain ⟨dst, _, h⟩ := bind_eq_ok.mp ho
    cases h
    rfl

end Insn

/-- The loads among the steps stand in listed slots, in order. -/
theorem probeSteps_sublist (index : Nat) (insns : List Insn) :
    (((stepsFrom index insns).filter fun s => s.probe?.isSome).map Step.index).Sublist
      (probeSlotsFrom index insns) := by
  fun_induction stepsFrom index insns with
  | case1 => exact List.nil_sublist _
  | case2 => exact List.nil_sublist _
  | case3 index i hw next rest ih =>
    rw [List.filter_cons_of_neg (by simp [Insn.probe?_of_wideOperation]), probeSlotsFrom,
      Insn.not_isProbeLoad_of_isWideLoad hw, probeSlotsFrom]
    simp only [Bool.false_eq_true, if_false]
    split
    · exact ih.cons _
    · exact ih
  | case4 index i rest _ ih =>
    rw [probeSlotsFrom]
    cases ho : i.operation with
    | error d =>
      rw [List.filter_cons_of_neg (by simp [Step.probe?, Step.operation?, Except.toOption])]
      split
      · exact ih.cons _
      · exact ih
    | ok operation =>
      have hprobe : (⟨index, 1, .ok operation⟩ : Step).probe?.isSome = i.isProbeLoad :=
        (Insn.probe?_of_operation ho).1
      split
      · rename_i hi
        rw [List.filter_cons_of_pos (by rw [hprobe]; exact hi), List.map_cons]
        exact ih.cons_cons index
      · rename_i hi
        rw [List.filter_cons_of_neg (by rw [hprobe]; exact hi)]
        exact ih

namespace Program

variable {p : Program}

/-- Loads that are as many as the program counts are the loads in all listed slots. -/
theorem index_probeSteps (h : p.probeSteps.length = p.probeCount) :
    p.probeSteps.map Step.index = p.probeSlots := by
  refine (probeSteps_sublist 0 p.insns).eq_of_length ?_
  rw [List.length_map, length_probeSlotsFrom]
  exact h

/-- The listed slots are then the slots of the loads that a pass visits. -/
theorem mem_probeSlots_iff_visits (h : p.probeSteps.length = p.probeCount) {k : Nat} :
    k ∈ p.probeSlots ↔ ∃ i, p.Visits k i ∧ i.isProbeLoad = true := by
  constructor
  · intro hk
    obtain ⟨i, hi, hprobe⟩ := mem_probeSlots.mp hk
    rw [← index_probeSteps h] at hk
    obtain ⟨s, hs, hindex⟩ := List.mem_map.mp hk
    exact ⟨i, ⟨⟨s, (List.mem_filter.mp hs).1, hindex⟩, hi⟩, hprobe⟩
  · rintro ⟨i, ⟨_, hi⟩, hprobe⟩
    exact mem_probeSlots.mpr ⟨i, hi, hprobe⟩

/-- A step that is a load fills the register of its destination field. -/
theorem register_of_probeSteps {s : Step} {dst : VReg} (hs : s ∈ p.steps)
    (hd : s.probe? = some dst) :
    ∃ i, p.insns[s.index]? = some i ∧ register i.dst = .ok dst := by
  obtain ⟨before, after, hsplit⟩ := List.append_of_mem hs
  obtain ⟨hindex, i, rest, hdrop, _, hcase⟩ := stepsFrom_split hsplit
  rw [Nat.zero_add] at hindex
  refine ⟨i, by rw [hindex, ← List.head?_drop, hdrop]; rfl, ?_⟩
  obtain ⟨operation, ho, hprobe⟩ := Option.bind_eq_some_iff.mp hd
  rw [Step.operation?_eq_some] at ho
  rcases hcase with ⟨_, _, _, herror⟩ | ⟨_, _, next, _, _, hwide⟩ | ⟨_, _, hnarrow⟩
  · rw [herror] at ho
    cases ho
  · have hnone : (⟨0, 0, i.wideOperation next⟩ : Step).probe? = none := Insn.probe?_of_wideOperation
    rw [Step.probe?_of_ok (hwide.symm.trans ho), hprobe] at hnone
    cases hnone
  · exact (Insn.probe?_of_operation (hnarrow.symm.trans ho)).2 dst hprobe

/-- In a program that hides no load and whose steps all mean something, the loads are as many as the
program counts. -/
theorem length_probeSteps (hhides : p.HidesNoProbe)
    (hmeans : ∀ s ∈ p.steps, ∃ operation, s.operation = .ok operation) :
    p.probeSteps.length = p.probeCount := by
  have hsublist : (p.probeSteps.map Step.index).Sublist p.probeSlots := probeSteps_sublist 0 p.insns
  have hsubset : p.probeSlots ⊆ p.probeSteps.map Step.index := by
    intro k hk
    obtain ⟨i, hi, hprobe⟩ := mem_probeSlots.mp hk
    have hlt : k < p.size := (List.getElem?_eq_some_iff.mp hi).1
    obtain ⟨before, s, after, hs, hle, hin⟩ := exists_step hlt
    have hmem : s ∈ p.steps := by simp [hs]
    obtain ⟨operation, ho⟩ := hmeans s hmem
    obtain ⟨hindex, j, rest, hdrop, _, hcase⟩ := stepsFrom_split hs
    rw [Nat.zero_add] at hindex
    have hj : p.insns[slotCount before]? = some j := by
      rw [← List.head?_drop, hdrop]
      rfl
    rcases hcase with ⟨_, _, _, herror⟩ | ⟨hw, hslots, _⟩ | ⟨_, hslots, hnarrow⟩
    · rw [herror] at ho
      cases ho
    · -- a wide load: its first slot is no load, and its second one hides none
      by_cases hfirst : k = slotCount before
      · rw [hfirst, hj, Option.some.injEq] at hi
        rw [← hi, Insn.not_isProbeLoad_of_isWideLoad hw] at hprobe
        cases hprobe
      · rw [show k = slotCount before + 1 by omega] at hi
        rw [hhides _ j i ⟨⟨s, hmem, hindex⟩, hj⟩ hw hi] at hprobe
        cases hprobe
    · obtain rfl : k = slotCount before := by omega
      obtain rfl : j = i := Option.some.inj (hj.symm.trans hi)
      have hsome := (Insn.probe?_of_operation (hnarrow.symm.trans ho)).1.trans hprobe
      refine List.mem_map.mpr ⟨s, List.mem_filter.mpr ⟨hmem, ?_⟩, hindex⟩
      rw [Step.probe?_of_ok ho]
      exact hsome
  have hnodup : p.probeSlots.Nodup :=
    (pairwise_probeSlotsFrom 0 p.insns).imp fun hlt => Nat.ne_of_lt hlt
  have hge := (hnodup.subperm hsubset).length_le
  have hlength := hsublist.length_le
  rw [List.length_map, length_probeSlots] at hlength hge
  exact Nat.le_antisymm hlength hge

end Program

end Virtual

namespace PassOutput

variable {p : Pass} {program : Program} {out : PassOutput}

/-- What a pass records about a load: where its slot starts, how long it is, and the register slot
of its destination. -/
def Records (out : PassOutput) (abi : Target.Abi) (s : Step) (site : ProbeSite) : Prop :=
  ∃ dst, s.probe? = some dst ∧ out.offset s.index < out.offset (s.index + 1) ∧
    site = ⟨out.offset s.index, out.offset (s.index + 1) - out.offset s.index, abi.slot dst.native⟩

/-- The loads among placed steps are recorded in order. -/
theorem records_of_place {depth : UInt32} {steps : List Step} {start : Nat} {epilogue : Option Nat}
    {placed : List Placed} (h : p.place depth steps start epilogue = .ok placed)
    (hoffset : ∀ f ∈ placed, out.offset f.index = f.start ∧ out.offset (f.index + 1) = f.stop) :
    List.Forall₂ (out.Records p.abi) (steps.filter fun s => s.probe?.isSome)
      (placed.filterMap Placed.probe?) := by
  induction steps generalizing start epilogue placed with
  | nil =>
    cases h
    exact .nil
  | cons step rest ih =>
    obtain ⟨operation, fragment, tail, ho, hl, _, ht, rfl⟩ := Pass.place_cons.mp h
    have htail := ih ht fun f hf => hoffset f (List.mem_cons_of_mem _ hf)
    obtain ⟨hstart, hstop⟩ := hoffset _ (List.mem_cons_self ..)
    dsimp only [Placed.stop] at hstart hstop
    have hmark := (Pass.lower_marks hl).1
    have hstep := Step.probe?_of_ok ho
    cases hprobe : operation.probe? with
    | none =>
      rw [hprobe] at hmark hstep
      rw [List.filter_cons_of_neg (by simp [hstep]), List.filterMap_cons, Placed.probe?, hmark]
      exact htail
    | some dst =>
      rw [hprobe] at hmark hstep
      rw [List.filter_cons_of_pos (by simp [hstep]), List.filterMap_cons, Placed.probe?, hmark]
      have hlength : 0 < codeSize fragment.code := by
        cases operation with
        | probe ext width dst base off =>
          cases hl
          rw [codeSize_cons]
          have hleast : 0 < (Lowering.load ext width dst base off).leastSize := by
            cases ext <;> exact Nat.zero_lt_two
          have hsize := (size_bounds (Lowering.load ext width dst base off)).1
          omega
        | _ => cases hprobe
      refine .cons ⟨dst, hstep, by omega, ?_⟩ htail
      rw [hstart, hstop, Nat.add_sub_cancel_left]

/-- The loads of a program are recorded in order. -/
theorem records_of_run (h : p.run program.steps = .ok out) :
    List.Forall₂ (out.Records p.abi) program.probeSteps out.probes := by
  obtain ⟨_, depth, placed, _, hp, rfl⟩ := Pass.run_eq_ok h
  exact records_of_place hp fun f hf => offset_of_mem hp hf

/-- A pass over a program that hides no load records as many loads as the program counts. -/
theorem length_probes (hhides : program.HidesNoProbe) (h : p.run program.steps = .ok out) :
    out.probes.length = program.probeCount := by
  rw [← (records_of_run h).length_eq]
  refine Program.length_probeSteps hhides fun s hs => ?_
  obtain ⟨before, after, hsplit⟩ := List.append_of_mem hs
  obtain ⟨_, operation, _, _, _, hh⟩ := holds_of_run h hsplit fun x hx => Program.slots_pos hx
  exact ⟨operation, hh.operation_eq⟩

end PassOutput

end NativeForge
