import Mathlib.Data.List.Forall2
import NativeForge.Proofs.BranchTargets
import NativeForge.Proofs.FragmentSizes
import NativeForge.Proofs.PassSequence

/-!
# The final pass

The final pass works from offsets that a pass without an address of the image has repeated. It
knows the address, and it may be the first pass with padding. Neither moves a byte: the output has
the same offsets, length, epilogue and sites, and its code differs only in the displacements of
calls. So the check behind the final pass never fails, and the code of one program at two places
differs only in the displacements of calls and in the fields of direct tail calls.
-/

namespace NativeForge

open X64 Virtual Target TailCall

namespace Virtual.Program

/-- The byte lies in the displacement of a call, which ends the slot of the call. -/
def InCallField (p : Program) (offset : Nat → Nat) (i : Nat) : Prop :=
  ∃ k id subprogram, k < p.size ∧ p.operation? k = some (.call id subprogram) ∧
    offset (k + 1) ≤ i + 4 ∧ i < offset (k + 1)

/-- The byte lies in a patchable field of a direct tail call: the jump around the teardown, twenty
bytes into the slot, or the jump that ends the slot. -/
def InPatchField (p : Program) (offset : Nat → Nat) (i : Nat) : Prop :=
  ∃ k id, k < p.size ∧ p.operation? k = some (.tailCall id) ∧ id ≠ 0 ∧
    (offset k + 20 ≤ i ∧ i < offset k + 20 + siteSize ∨
      offset (k + 1) ≤ i + siteSize ∧ i < offset (k + 1))

end Virtual.Program

/-- The outputs of two passes are the same but for the displacements of calls. -/
structure PassOutput.Repeats (program : Program) (out again : PassOutput) : Prop where
  /-- The offsets are the same. -/
  offsets_eq : again.offsets = out.offsets
  /-- The codes have one length. -/
  size_eq : again.code.size = out.code.size
  /-- The epilogue is at one place. -/
  epilogue_eq : again.epilogue = out.epilogue
  /-- The fault-tolerant loads are the same. -/
  probes_eq : again.probes = out.probes
  /-- The direct tail calls are the same. -/
  direct_eq : again.direct = out.direct
  /-- The codes differ only in displacements of calls. -/
  code_eq : ∀ i, ¬program.InCallField out.offset i → again.code[i]? = out.code[i]?

/-- Two fragments for one step at one place that differ at most in the displacement of a call. -/
structure Placed.Alike (resolved : Prop) (f g : Placed) : Prop where
  /-- The fragments stand for the same slots. -/
  slots_eq : g.slots = f.slots
  /-- The fragments start at one offset. -/
  start_eq : g.start = f.start
  /-- The fragments are alike. -/
  alike : ∃ operation, Fragment.Alike operation f.fragment g.fragment
  /-- With the same call targets both wait or both do not. -/
  pending_eq : resolved → g.fragment.pending = f.fragment.pending

namespace Placed.Alike

variable {resolved : Prop} {f g : Placed}

/-- Alike fragments take the same bytes. -/
theorem codeSize_eq (h : Alike resolved f g) :
    codeSize g.fragment.code = codeSize f.fragment.code := by
  obtain ⟨_, halike⟩ := h.alike
  exact halike.codeSize_eq

/-- Alike fragments end at one offset. -/
theorem stop_eq (h : Alike resolved f g) : g.stop = f.stop := by
  rw [Placed.stop, Placed.stop, h.start_eq, h.codeSize_eq]

/-- Alike fragments are both the epilogue or both not. -/
theorem epilogue_eq (h : Alike resolved f g) : g.fragment.epilogue = f.fragment.epilogue := by
  obtain ⟨_, halike⟩ := h.alike
  exact halike.epilogue_eq

/-- Alike fragments have the same fault-tolerant load. -/
theorem probe?_eq (h : Alike resolved f g) : g.probe? = f.probe? := by
  obtain ⟨_, halike⟩ := h.alike
  rw [Placed.probe?, Placed.probe?, halike.probe_eq, h.start_eq, h.codeSize_eq]

/-- Alike fragments have the same direct tail call. -/
theorem direct?_eq (h : Alike resolved f g) : g.direct? = f.direct? := by
  obtain ⟨_, halike⟩ := h.alike
  rw [Placed.direct?, Placed.direct?, halike.direct_eq, h.start_eq]

end Placed.Alike

/-- Outputs collected from alike fragments agree in everything but their bytes. -/
theorem PassOutput.ofPlaced_alike {resolved : Prop} {placed placed' : List Placed}
    (h : List.Forall₂ (Placed.Alike resolved) placed placed') (prologue : List Instr) :
    (ofPlaced prologue placed').offsets = (ofPlaced prologue placed).offsets ∧
    (ofPlaced prologue placed').code.size = (ofPlaced prologue placed).code.size ∧
    (ofPlaced prologue placed').epilogue = (ofPlaced prologue placed).epilogue ∧
    (ofPlaced prologue placed').probes = (ofPlaced prologue placed).probes ∧
    (ofPlaced prologue placed').direct = (ofPlaced prologue placed).direct ∧
    (resolved → (ofPlaced prologue placed').pending = (ofPlaced prologue placed).pending) := by
  have hlists : (placed'.flatMap fun f => List.replicate f.slots f.stop) =
        (placed.flatMap fun f => List.replicate f.slots f.stop) ∧
      placedSize placed' = placedSize placed ∧
      (placed'.find? fun f => f.fragment.epilogue).map Placed.start =
        (placed.find? fun f => f.fragment.epilogue).map Placed.start ∧
      placed'.filterMap Placed.probe? = placed.filterMap Placed.probe? ∧
      placed'.filterMap Placed.direct? = placed.filterMap Placed.direct? ∧
      (resolved → (placed'.countP fun f => f.fragment.pending) =
        placed.countP fun f => f.fragment.pending) := by
    induction h with
    | nil => exact ⟨rfl, rfl, rfl, rfl, rfl, fun _ => rfl⟩
    | @cons f g _ _ hf _ ih =>
      obtain ⟨hoffsets, hsize, hepilogue, hprobes, hdirect, hpending⟩ := ih
      unfold placedSize at hsize ⊢
      refine ⟨?_, ?_, ?_, ?_, ?_, fun hr => ?_⟩
      · rw [List.flatMap_cons, List.flatMap_cons, hf.slots_eq, hf.stop_eq, hoffsets]
      · rw [List.map_cons, List.map_cons, List.sum_cons, List.sum_cons, hf.codeSize_eq, hsize]
      · rw [List.find?_cons, List.find?_cons, hf.epilogue_eq]
        cases f.fragment.epilogue with
        | true => exact congrArg some hf.start_eq
        | false => exact hepilogue
      · rw [List.filterMap_cons, List.filterMap_cons, hf.probe?_eq, hprobes]
      · rw [List.filterMap_cons, List.filterMap_cons, hf.direct?_eq, hdirect]
      · rw [List.countP_cons, List.countP_cons, hf.pending_eq hr, hpending hr]
  obtain ⟨hoffsets, hsize, hepilogue, hprobes, hdirect, hpending⟩ := hlists
  refine ⟨?_, ?_, hepilogue, hprobes, hdirect, hpending⟩
  · exact congrArg (fun l => (codeSize prologue :: l).toArray) hoffsets
  · rw [← Array.length_toList, ← Array.length_toList, code_ofPlaced, code_ofPlaced,
      List.length_append, List.length_append, length_placedBytes, length_placedBytes, hsize]

namespace Pass

variable {p q : Pass} {depth : UInt32}

/-- Steps are placed again alike, each at its place. -/
theorem place_again {steps : List Step} {start : Nat} {epilogue : Option Nat}
    {placed placed' : List Placed} (ha : p.Akin q)
    (h : p.place depth steps start epilogue = .ok placed)
    (hr : ∀ f ∈ placed, p.Repeats q f.index (codeSize f.fragment.code))
    (h' : q.place depth steps start epilogue = .ok placed') :
    List.Forall₂ (Placed.Alike (q.resolve = p.resolve)) placed placed' := by
  induction steps generalizing start epilogue placed placed' with
  | nil =>
    cases h
    cases h'
    exact .nil
  | cons step rest ih =>
    obtain ⟨operation, fragment, tail, ho, hl, _, ht, rfl⟩ := place_cons.mp h
    obtain ⟨operation', fragment', tail', ho', hl', _, ht', rfl⟩ := place_cons.mp h'
    obtain rfl : operation = operation' := Except.ok.inj (ho.symm.trans ho')
    have hhead := hr _ (List.mem_cons_self ..)
    obtain ⟨halike, hpending⟩ := lower_again ha hl hhead hl'
    rw [halike.codeSize_eq, halike.epilogue_eq] at ht'
    exact .cons ⟨rfl, rfl, ⟨operation, halike⟩, hpending⟩
      (ih ht (fun f hf => hr f (List.mem_cons_of_mem _ hf)) ht')

/-- Steps that were placed are placed again, unless a call does not reach its target. -/
theorem place_again_failsOnly {steps : List Step} {start : Nat} {epilogue : Option Nat}
    {placed : List Placed} (ha : p.Akin q) (hres : q.resolve = p.resolve)
    (hmax : q.maxInsnSize = p.maxInsnSize)
    (h : p.place depth steps start epilogue = .ok placed)
    (hr : ∀ f ∈ placed, p.Repeats q f.index (codeSize f.fragment.code)) :
    FailsOnly IsCallFailure (q.place depth steps start epilogue) := by
  induction steps generalizing start epilogue placed with
  | nil => exact failsOnly_ok _
  | cons step rest ih =>
    obtain ⟨operation, fragment, tail, ho, hl, hsize, ht, rfl⟩ := place_cons.mp h
    have hhead := hr _ (List.mem_cons_self ..)
    rw [place, ho]
    refine .bind_of_eq (failsOnly_ok _) fun operation' ho' => ?_
    obtain rfl : operation = operation' := Except.ok.inj ho'
    refine .bind_of_eq (lower_again_failsOnly ha hres hl hhead) fun fragment' hl' => ?_
    obtain ⟨halike, _⟩ := lower_again ha hl hhead hl'
    dsimp only
    rw [halike.codeSize_eq, halike.epilogue_eq, if_neg (by omega)]
    exact .bind (ih ht fun f hf => hr f (List.mem_cons_of_mem _ hf)) fun _ => failsOnly_pure _

/-- Every fragment of a pass that kept its offsets has the length that the offsets give it. -/
theorem offset_succ_of_kept {program : Program} {placed : List Placed} {f : Placed}
    (hp : p.place depth program.steps (codeSize (p.frame.prologue depth)) none = .ok placed)
    (hkept : (PassOutput.ofPlaced (p.frame.prologue depth) placed).offsets = p.offsets)
    (hf : f ∈ placed) :
    p.offset (f.index + 1) = p.offset f.index + codeSize f.fragment.code := by
  obtain ⟨hstart, hstop⟩ := PassOutput.offset_of_mem hp hf
  rw [PassOutput.offset, hkept] at hstart hstop
  have hspan : p.offset (f.index + 1) = f.start + codeSize f.fragment.code := hstop
  rw [hspan, ← hstart]
  rfl

/-- What is needed of a pass to repeat another one: the offsets are the same, and the padding is the
same or was switched on behind offsets that were kept. -/
def RunRepeats (p q : Pass) (out : PassOutput) : Prop :=
  q.offsets = p.offsets ∧ (q.padding = p.padding ∨ q.padding = true ∧ out.offsets = p.offsets)

/-- A pass that repeats another one repeats it in every slot. -/
theorem RunRepeats.placed {program : Program} {placed : List Placed}
    (hp : p.place depth program.steps (codeSize (p.frame.prologue depth)) none = .ok placed)
    (hr : p.RunRepeats q (PassOutput.ofPlaced (p.frame.prologue depth) placed)) :
    ∀ f ∈ placed, p.Repeats q f.index (codeSize f.fragment.code) := by
  intro f hf
  refine ⟨hr.1, hr.2.imp_right fun ⟨hpadding, hkept⟩ => ⟨hpadding, ?_⟩⟩
  exact offset_succ_of_kept hp hkept hf

end Pass

namespace PassOutput

variable {p q : Pass} {program : Program} {out again : PassOutput}

/-- Every byte behind the prologue lies in a slot. -/
theorem exists_slot {i n : Nat} (h0 : out.offset 0 ≤ i) (hn : i < out.offset n) :
    ∃ k, k < n ∧ out.offset k ≤ i ∧ i < out.offset (k + 1) := by
  induction n with
  | zero => omega
  | succ n ih =>
    by_cases hlt : i < out.offset n
    · obtain ⟨k, hk, hle, hlt⟩ := ih hlt
      exact ⟨k, by omega, hle, hlt⟩
    · exact ⟨n, by omega, by omega, hn⟩

/-- The bytes of a slot are those of its fragment. -/
theorem Lowers.getElem?_code {depth : UInt32} {k : Nat} {operation : Operation}
    {fragment : Fragment} (h : out.Lowers p program depth k operation fragment) {i : Nat}
    (hle : out.offset k ≤ i) (hlt : i < out.offset (k + 1)) :
    out.code[i]? = (encodeAll fragment.code)[i - out.offset k]? := by
  obtain ⟨rest, hcode⟩ := h.code_eq
  have hsucc := h.offset_succ
  rw [← Array.getElem?_toList, show i = out.offset k + (i - out.offset k) by omega,
    ← List.getElem?_drop, ← codeFrom, hcode, List.getElem?_append_left
      (by rw [length_encodeAll]; omega), Nat.add_sub_cancel_left]

/-- The bytes of the prologue. -/
theorem getElem?_prologue {depth : UInt32} {i : Nat} (h : p.run program.steps = .ok out)
    (hd : p.frame.IsDepth depth) (hlt : i < out.offset 0) :
    out.code[i]? = (encodeAll (p.frame.prologue depth))[i]? := by
  obtain ⟨_, _, _, depth', rest, hd', hzero, hcode⟩ :=
    offsets_of_run h (fun x hx => Program.slots_pos hx)
  obtain rfl := hd'.unique hd
  rw [← Array.getElem?_toList, hcode, List.getElem?_append_left (by rw [length_encodeAll]; omega)]

/-- A pass that repeats another one gives its output again, but for the displacements of calls. -/
theorem repeats_of_run (ha : p.Akin q) (hr : p.RunRepeats q out)
    (h : p.run program.steps = .ok out) (h' : q.run program.steps = .ok again) :
    out.Repeats program again ∧ (q.resolve = p.resolve → again.pending = out.pending) := by
  obtain ⟨_, depth, placed, hd, hp, rfl⟩ := Pass.run_eq_ok h
  obtain ⟨_, depth', placed', hd', hp', rfl⟩ := Pass.run_eq_ok h'
  rw [ha.frame_eq] at hd' hp' h'
  obtain rfl := hd'.unique hd
  have halike := Pass.place_again ha hp (hr.placed hp) hp'
  obtain ⟨hoffsets, hsize, hepilogue, hprobes, hdirect, hpending⟩ :=
    ofPlaced_alike halike (p.frame.prologue depth)
  rw [ha.frame_eq]
  refine ⟨⟨hoffsets, hsize, hepilogue, hprobes, hdirect, ?_⟩, hpending⟩
  intro i hi
  generalize hout : ofPlaced (p.frame.prologue depth) placed = out at *
  generalize hagain : ofPlaced (p.frame.prologue depth) placed' = again at *
  have hoffset : ∀ k, again.offset k = out.offset k := fun k => by
    rw [offset, offset, hoffsets]
  obtain ⟨_, _, hend, _⟩ := offsets_of_run h (fun x hx => Program.slots_pos hx)
  rw [Program.slotCount_steps] at hend
  by_cases hcode : i < out.code.size
  · by_cases hzero : i < out.offset 0
    · rw [getElem?_prologue h hd hzero,
        getElem?_prologue h' (by rw [ha.frame_eq]; exact hd) (by rw [hoffset]; exact hzero),
        ha.frame_eq]
    · have hlast : i < out.offset program.size := by omega
      obtain ⟨k, hk, hle, hlt⟩ := exists_slot (by omega) hlast
      rcases lowers_of_run h hk with ⟨_, hflat⟩ | ⟨depthA, operation, f, hf⟩
      · omega
      · rcases lowers_of_run h' hk with ⟨hnone, _⟩ | ⟨depthB, operation', g, hg⟩
        · rw [hf.operation_eq] at hnone
          cases hnone
        · obtain rfl : operation = operation' :=
            Option.some.inj (hf.operation_eq.symm.trans hg.operation_eq)
          obtain rfl := hf.isDepth.unique (ha.frame_eq ▸ hg.isDepth)
          have hsucc := hf.offset_succ
          have hrepeat : p.Repeats q k (codeSize f.code) := by
            refine ⟨hr.1, hr.2.imp_right fun hpadded => ⟨hpadded.1, ?_⟩⟩
            rw [offset, offset, hpadded.2] at hsucc
            exact hsucc
          have hlowered := hg.lowered
          rw [show again.offset = out.offset from funext hoffset] at hlowered
          obtain ⟨hfragments, _⟩ := Pass.lower_again ha hf.lowered hrepeat hlowered
          rw [hf.getElem?_code hle hlt,
            hg.getElem?_code (by rw [hoffset]; exact hle) (by rw [hoffset]; exact hlt), hoffset]
          refine hfragments.getElem?_encodeAll fun hcalls => ?_
          obtain ⟨id, subprogram, hcall⟩ := hcalls
          by_contra hnot
          exact hi ⟨k, id, subprogram, hk, by rw [hf.operation_eq, hcall], by omega, hlt⟩
  · rw [Array.getElem?_eq_none (by omega), Array.getElem?_eq_none (by omega)]

end PassOutput

/-- A pass that was run is run again with another address of the image, unless a call does not reach
its target from there. -/
theorem Pass.run_again_failsOnly {p q : Pass} {program : Program} {out : PassOutput}
    (ha : p.Akin q) (hres : q.resolve = p.resolve) (hmax : q.maxInsnSize = p.maxInsnSize)
    (hslots : q.slots = p.slots) (hr : p.RunRepeats q out) (h : p.run program.steps = .ok out) :
    FailsOnly IsCallFailure (q.run program.steps) := by
  obtain ⟨hsize, depth, placed, hd, hp, rfl⟩ := run_eq_ok h
  unfold run
  rw [if_neg (by rw [hr.1, hslots]; simpa using hsize)]
  refine .ite (failsOnly_error.mpr (.inl rfl)) ?_
  rw [ha.frame_eq, Frame.roundedDepth_eq_ok.mpr hd]
  refine .bind_of_eq (failsOnly_ok _) fun depth' hdepth => ?_
  obtain rfl : depth = depth' := Except.ok.inj hdepth
  exact .bind (place_again_failsOnly ha hres hmax hp (hr.placed hp)) fun _ => failsOnly_pure _

namespace Source

variable {s : Source} {n : Nat}

/-- A pass with other call targets has the same layout. -/
theorem layout_of_resolve {resolve : CallSite → Option Address} {offsets : Array Nat}
    {padding : Bool} {out out' : PassOutput} (h : s.run offsets none padding = .ok out)
    (h' : { s with resolve := resolve }.run offsets none padding = .ok out') :
    out'.layout = out.layout := by
  have ha : (s.pass offsets none padding).Akin
      ({ s with resolve := resolve }.pass offsets none padding) := ⟨rfl, rfl, rfl⟩
  have hrepeats := (PassOutput.repeats_of_run ha ⟨rfl, .inl rfl⟩ h h').1
  exact Layout.mk.injEq .. ▸ ⟨hrepeats.offsets_eq, hrepeats.size_eq⟩

/-- Passes settle at one layout, whatever the call targets are. -/
theorem settle_of_resolve {resolve : CallSite → Option Address} {remaining number : Nat}
    {previous : Layout} {settled settled' : Settled}
    (h : s.settle remaining number previous = .ok settled)
    (h' : { s with resolve := resolve }.settle remaining number previous = .ok settled') :
    settled' = settled := by
  induction remaining generalizing number previous with
  | zero => exact absurd h (defect_ne_ok _ _)
  | succ remaining ih =>
    rw [settle_succ] at h h'
    obtain ⟨out, ho, h⟩ := bind_eq_ok.mp h
    obtain ⟨out', ho', h'⟩ := bind_eq_ok.mp h'
    rw [layout_of_resolve ho ho'] at h'
    by_cases hsame : out.layout = previous
    · rw [if_pos hsame] at h h'
      cases h
      cases h'
      rfl
    · rw [if_neg hsame] at h h'
      exact ih h h'

/-- A program settles at one layout, whatever the call targets are. -/
theorem layout_unique {config : Config} {program : Program}
    {resolve resolve' : CallSite → Option Address} {settled settled' : Settled}
    (h : (sourceOf config program resolve).layout = .ok settled)
    (h' : (sourceOf config program resolve').layout = .ok settled') : settled' = settled := by
  unfold Source.layout at h h'
  split at h
  · exact absurd h (defect_ne_ok _ _)
  · rename_i hempty
    have hempty' : ¬(sourceOf config program resolve').program.insns.isEmpty = true := hempty
    rw [if_neg hempty'] at h'
    obtain ⟨start, hs, h⟩ := bind_eq_ok.mp h
    obtain ⟨start', hs', h'⟩ := bind_eq_ok.mp h'
    obtain rfl : start = start' := Except.ok.inj (hs.symm.trans hs')
    exact settle_of_resolve h h'

/-- A settled layout is the layout of a pass over itself, and the pass behind it pads if that pass
did. -/
theorem run_of_settled {settled : Settled} (h : s.layout = .ok settled) :
    ∃ padding out, s.run settled.layout.offsets none padding = .ok out ∧
      out.layout = settled.layout ∧
      (s.padded settled.passes = padding ∨ s.padded settled.passes = true) := by
  obtain ⟨m, hpasses, _, hlayout, hnext⟩ := layout_eq_ok h
  obtain ⟨before, out, hb, hr, heq⟩ := layoutAfter_succ_eq_ok hnext
  obtain rfl : before = settled.layout := Except.ok.inj (hb.symm.trans hlayout)
  refine ⟨s.padded m, out, hr, heq.symm, ?_⟩
  rw [hpasses]
  by_cases hle : s.config.paddingPasses ≤ m + 1
  · exact .inr (decide_eq_true hle)
  · left
    unfold padded
    rw [decide_eq_false hle, decide_eq_false (by omega)]

/-- A pass over offsets that a pass without an address kept gives the same output, unless a call does
not reach its target. -/
theorem run_again {offsets : Array Nat} {padding padding' : Bool} {out : PassOutput}
    (h : s.run offsets none padding = .ok out) (hkept : out.offsets = offsets)
    (hp : padding' = padding ∨ padding' = true) (base : Option Address) :
    (∃ again, s.run offsets base padding' = .ok again ∧ out.Repeats s.program again ∧
      again.pending = out.pending) ∨
    ∃ f, s.run offsets base padding' = .error f ∧ Pass.IsCallFailure f := by
  have ha : (s.pass offsets none padding).Akin (s.pass offsets base padding') := ⟨rfl, rfl, rfl⟩
  have hr : (s.pass offsets none padding).RunRepeats (s.pass offsets base padding') out :=
    ⟨rfl, hp.imp_right fun h => ⟨h, hkept⟩⟩
  cases hrun : s.run offsets base padding' with
  | ok again =>
    obtain ⟨hrepeats, hpending⟩ := PassOutput.repeats_of_run ha hr h hrun
    exact .inl ⟨again, rfl, hrepeats, hpending rfl⟩
  | error f =>
    exact .inr ⟨f, rfl, Pass.run_again_failsOnly ha rfl rfl rfl hr h f hrun⟩

end Source

/-- The check behind the final pass never fails. -/
theorem checkFinal_of_settled {s : Source} {settled : Settled} {base : Address} {out : PassOutput}
    (hs : s.layout = .ok settled)
    (h : s.run settled.layout.offsets (some base) (s.padded settled.passes) = .ok out) :
    checkFinal settled.layout out = .ok () := by
  obtain ⟨padding, first, hr, hlayout, hp⟩ := Source.run_of_settled hs
  have hkept : first.offsets = settled.layout.offsets := congrArg Layout.offsets hlayout
  have hsize : first.code.size = settled.layout.size := congrArg Layout.size hlayout
  have hagain := Source.run_again hr hkept hp (some base)
  rcases hagain with ⟨again, hagain, hrepeats, _⟩ | ⟨f, hf, _⟩
  · obtain rfl : out = again := Except.ok.inj (h.symm.trans hagain)
    unfold checkFinal
    rw [if_neg (by rw [hrepeats.size_eq, hsize]; simp),
      if_neg (by rw [hrepeats.offsets_eq, hkept]; simp)]
  · rw [h] at hf
    cases hf

/-- A program that was compiled at once has the settled layout. -/
theorem compile_settled {config : Config} {program : Program}
    {resolve : CallSite → Option Address} {tables : Array Table}
    {alloc : Nat → Result MemoryError Image} {c : CompiledProgram}
    (h : (compile config program resolve tables alloc).outcome = .ok (.compiled c)) :
    ∃ settled, (sourceOf config program resolve).layout = .ok settled ∧
      c.offsets = settled.layout.offsets ∧ c.size = settled.layout.size := by
  unfold compile at h
  dsimp only at h
  split at h
  · cases h
  · rename_i settled hs
    split at h
    · cases h
    · split at h
      · cases h
      · unfold emitFinal at h
        dsimp only at h
        split at h
        · cases h
        · split at h
          · cases h
          · split at h
            · obtain ⟨_, _, _, _, _, rfl, _⟩ := finalize_compiled h
              exact ⟨settled, hs, rfl, rfl⟩
            · cases h

/-- A program that waits has the settled layout. -/
theorem pending_settled {config : Config} {program : Program}
    {resolve : CallSite → Option Address} {tables : Array Table}
    {alloc : Nat → Result MemoryError Image} {p : PendingProgram}
    (h : (compile config program resolve tables alloc).outcome = .ok (.pending p)) :
    ∃ settled, (sourceOf config program resolve).layout = .ok settled ∧
      p.layout = settled.layout := by
  unfold compile at h
  dsimp only at h
  split at h
  · cases h
  · rename_i settled hs
    split at h
    · cases h
    · split at h
      · cases h
      · unfold emitFinal at h
        dsimp only at h
        split at h
        · cases h
        · split at h
          · cases h
          · split at h
            · exact absurd h finalize_ne_pending
            · cases h
              exact ⟨settled, hs, rfl⟩

/-- A program that was finished has the layout that it waited with. -/
theorem finish_layout {p : PendingProgram} {program : Program}
    {resolve : CallSite → Option Address} {tables : Array Table} {asked : Option Nat}
    {c : CompiledProgram}
    (h : (p.finish program resolve tables asked).outcome = .ok (.compiled c)) :
    c.offsets = p.layout.offsets ∧ c.size = p.layout.size := by
  unfold PendingProgram.finish at h
  dsimp only at h
  split at h
  · cases h
  · split at h
    · cases h
    · split at h
      · obtain ⟨_, _, _, _, _, rfl, _⟩ := finalize_compiled h
        exact ⟨rfl, rfl⟩
      · cases h

/-- A compiled program has a settled layout. -/
theorem Compiles.settled {config : Config} {program : Program} {c : CompiledProgram}
    (h : Compiles config program c) :
    ∃ resolve settled, (sourceOf config program resolve).layout = .ok settled ∧
      c.offsets = settled.layout.offsets ∧ c.size = settled.layout.size := by
  cases h with
  | @atOnce resolve _ _ _ h => exact ⟨resolve, compile_settled h⟩
  | @later resolve _ _ _ _ _ _ _ h h' =>
    obtain ⟨settled, hs, hlayout⟩ := pending_settled h
    obtain ⟨hoffsets, hsize⟩ := finish_layout h'
    rw [hlayout] at hoffsets hsize
    exact ⟨resolve, settled, hs, hoffsets, hsize⟩

/-- The bypass of a direct tail call is twenty bytes into its code. -/
theorem bypassOffset_eq {frame : Frame} {depth : UInt32} {descriptor : Nat} {code : List Instr}
    {site : DirectSite} (h : TailCall.direct frame depth descriptor = .ok (code, site)) :
    site.bypassOffset = 20 := by
  obtain ⟨_, _, rfl, _⟩ := TailCall.direct_eq_ok h
  rfl

/-- The fields of the direct tail calls of an output are those of the program's slots. -/
theorem PassOutput.inPatchField_of_covers {p : Pass} {program : Program} {out : PassOutput}
    (h : p.run program.steps = .ok out) {d : DirectSite} (hd : d ∈ out.direct) {i : Nat}
    (hi : d.Covers i) : program.InPatchField out.offset i := by
  have hslots : ∀ x ∈ program.steps, 1 ≤ x.slots := fun x hx => Program.slots_pos hx
  obtain ⟨before, s, after, depth, operation, epilogue, fragment, site, hs, hh, hsite, rfl⟩ :=
    direct_of_run h hslots hd
  obtain ⟨id, rfl, hid, _, hdirect⟩ := Pass.lower_direct hh.lowered hsite
  have hbypass := bypassOffset_eq hdirect
  obtain ⟨_, htarget⟩ := direct_fields hdirect
  have hone := hslots s (by simp [hs])
  have hstop := hh.stop_eq 1 (by omega) hone
  have hcount := Program.slotCount_steps program
  rw [hs, slotCount_append, slotCount_cons] at hcount
  refine ⟨slotCount before, id, by omega, ?_, hid, ?_⟩
  · rw [Program.operation?_of_split hs, Step.operation?_eq_some]
    exact hh.operation_eq
  · unfold DirectSite.Covers DirectSite.shift at hi
    dsimp only at hi
    rw [hstop]
    omega

/-- The code of a compiled program is the output of its final pass outside the fields of its direct
tail calls. -/
theorem Emits.getElem?_code {source : Source} {tables : Array Table} {e : Emission}
    {done : Installation} {c : CompiledProgram} (he : Emits source tables e done c) {i : Nat}
    (hi : ∀ d ∈ e.out.direct, ¬d.Covers i) : c.code[i]? = e.out.code[i]? := by
  have hlength := he.length_code
  by_cases hlt : i < e.out.code.size
  · obtain ⟨fresh, hw⟩ := he.written_eq
    obtain ⟨_, _, _, hwritten⟩ := writeImage_eq_ok hw
    have hsize := he.size_eq
    have hinside : min c.size c.image.bytes.size - 0 = e.out.code.size := by
      rw [← Array.size_extract, ← Array.length_toList]
      exact hlength
    rw [← hwritten i hlt, ← he.image_frame hi, CompiledProgram.code, Array.getElem?_toList,
      Array.getElem?_extract, if_pos (by omega), Nat.zero_add]
  · rw [List.getElem?_eq_none (by omega), Array.getElem?_eq_none (by omega)]

/-- The code of one program at two places. -/
theorem Compiles.code_eq {config : Config} {program : Program} {c c' : CompiledProgram}
    (h : Compiles config program c) (h' : Compiles config program c') :
    c'.offsets = c.offsets ∧ c'.size = c.size ∧
      ∀ i, ¬program.InCallField c.offset i → ¬program.InPatchField c.offset i →
        c'.code[i]? = c.code[i]? := by
  obtain ⟨_, settled, hs, hoffsets, hsize⟩ := h.settled
  obtain ⟨_, settled', hs', hoffsets', hsize'⟩ := h'.settled
  obtain rfl := Source.layout_unique hs hs'
  obtain ⟨resolve, tables, e, done, he⟩ := h.emits
  obtain ⟨resolve', tables', e', done', he'⟩ := h'.emits
  have hsame : c'.offsets = c.offsets := hoffsets'.trans hoffsets.symm
  refine ⟨hsame, hsize'.trans hsize.symm, fun i hcall hpatch => ?_⟩
  obtain ⟨padding, hp⟩ := he.pass_eq
  obtain ⟨padding', hp'⟩ := he'.pass_eq
  have hout : e.out.offset = c.offset := funext he.out_offset
  have hout' : e'.out.offset = c.offset := by
    funext k
    rw [he'.out_offset, CompiledProgram.offset, hsame]
    rfl
  have hfree : ∀ d ∈ e.out.direct, ¬d.Covers i := fun d hd hcovers =>
    hpatch (hout ▸ PassOutput.inPatchField_of_covers he.run_eq hd hcovers)
  have hfree' : ∀ d ∈ e'.out.direct, ¬d.Covers i := fun d hd hcovers =>
    hpatch (hout' ▸ PassOutput.inPatchField_of_covers he'.run_eq hd hcovers)
  rw [he.getElem?_code hfree, he'.getElem?_code hfree']
  have hakin : e.pass.Akin e'.pass := by
    rw [hp, hp']
    exact ⟨rfl, rfl, rfl⟩
  have hpass : e'.pass.offsets = e.pass.offsets := by
    rw [hp, hp']
    exact hsame
  have hkept : e.out.offsets = e.pass.offsets := by
    rw [he.offsets_eq, hp]
    rfl
  have hkept' : e'.out.offsets = e'.pass.offsets := by
    rw [he'.offsets_eq, hp']
    rfl
  -- the pass that pads repeats the one that does not, whichever of the two it is
  by_cases hpad : e'.pass.padding = true
  · have hrepeats := (PassOutput.repeats_of_run hakin ⟨hpass, .inr ⟨hpad, hkept⟩⟩ he.run_eq
      he'.run_eq).1
    exact hrepeats.code_eq i (hout ▸ hcall)
  · have hback : e.pass.padding = e'.pass.padding ∨
        e.pass.padding = true ∧ e'.out.offsets = e'.pass.offsets := by
      cases hq : e.pass.padding with
      | false => exact .inl (by simpa using hpad)
      | true => exact .inr ⟨rfl, hkept'⟩
    have hrepeats := (PassOutput.repeats_of_run
      ⟨hakin.frame_eq.symm, hakin.abi_eq.symm, hakin.descriptors_eq.symm⟩
      ⟨hpass.symm, hback⟩ he'.run_eq he.run_eq).1
    exact (hrepeats.code_eq i (hout' ▸ hcall)).symm

/-- A pass with an address over offsets that a pass without one kept fails for the range of a call,
or repeats that pass but for displacements of calls. So no compilation fails in the check behind its
final pass, and images of one program differ only in displacements of calls and tail calls. -/
theorem final_pass_repeats :
    (∀ (s : Source) (offsets : Array Nat) (padding : Bool) (out : PassOutput),
      s.run offsets none padding = .ok out → out.offsets = offsets →
      ∀ base padding', padding' = padding ∨ padding' = true →
        (∃ again, s.run offsets base padding' = .ok again ∧ out.Repeats s.program again ∧
          again.pending = out.pending) ∨
        ∃ f, s.run offsets base padding' = .error f ∧ Pass.IsCallFailure f) ∧
    (∀ config program resolve tables alloc,
      (∀ size settled, (compile config program resolve tables alloc).outcome ≠
        .error (.reported (.internal (.finalLength size settled)))) ∧
      (compile config program resolve tables alloc).outcome ≠
        .error (.reported (.internal .finalOffsets))) ∧
    ∀ config program c c', Compiles config program c → Compiles config program c' →
      c'.offsets = c.offsets ∧ c'.size = c.size ∧
        ∀ i, ¬program.InCallField c.offset i → ¬program.InPatchField c.offset i →
          c'.code[i]? = c.code[i]? := by
  refine ⟨?_, ?_, ?_⟩
  · intro s offsets padding out h hkept base padding' hp
    exact Source.run_again h hkept hp base
  · intro config program resolve tables alloc
    -- the stages before the check report other defects, and the check reports none
    have hdriver : ∀ d, (compile config program resolve tables alloc).outcome =
        .error (.reported (.internal d)) → d ≠ .emptyProgram → (∀ n, d ≠ .notConverged n) →
        d.stage ≠ .driver := by
      intro d h hempty hconverged hstage
      have hrun : ∀ stages : List Stage, Stage.driver ∉ stages →
          ¬Failure.From stages (.reported (.internal d)) := by
        intro stages hnot hfrom
        have hmem : d.stage ∈ stages := hfrom
        rw [hstage] at hmem
        exact hnot hmem
      rcases compile_eq_error h with h | ⟨_, _, _, h⟩ | ⟨_, _, _, hs, hr, h⟩ | h
      · rcases Source.layout_eq_error h with h | h | ⟨_, _, _, h⟩ | ⟨h, _⟩
        · cases h
          exact hempty rfl
        · cases h
        · exact hrun _ (by decide) (Pass.run_failsOnly _ program _ h)
        · cases h
          exact hconverged _ rfl
      · exact hrun _ (by decide) (Pass.run_failsOnly _ program _ h)
      · rw [checkFinal_of_settled hs hr] at h
        cases h
      · exact hrun _ (by decide) h
    exact ⟨fun size settled h => hdriver _ h (by simp) (by simp) rfl,
      fun h => hdriver _ h (by simp) (by simp) rfl⟩
  · intro config program c c' h h'
    exact h.code_eq h'

/-- A call of a helper and an exit. -/
def helperProgram : Program where
  name := "helper"
  insns := [⟨0x85, 0, 0, 0, 1⟩, ⟨0x95, 0, 0, 0, 0⟩]

/-- The program at two addresses: the two codes are not the same, and all bytes but the four of the
call's displacement are. -/
theorem final_pass_repeats_helperProgram :
    ∃ c c', Compiles {} helperProgram c ∧ Compiles {} helperProgram c' ∧
      c.code.drop 11 = [0xE8, 0xF0, 0x3F, 0x00, 0x00, 0xC9, 0xC3] ∧
      c'.code.drop 11 = [0xE8, 0xF0, 0x2F, 0x00, 0x00, 0xC9, 0xC3] ∧
      ∀ i, i < 12 ∨ 16 ≤ i → c'.code[i]? = c.code[i]? := by
  have hcompile : ∀ base : Address, (compile {} helperProgram (fun _ => some 0x5000) #[] fun size =>
      .ok (.blank base size)).program?.isSome = true → ∃ c, Compiles {} helperProgram c ∧
        (compile {} helperProgram (fun _ => some 0x5000) #[] fun size =>
          .ok (.blank base size)).program? = some c := by
    intro base h
    obtain ⟨c, hc⟩ := Option.isSome_iff_exists.mp h
    exact ⟨c, .atOnce (Compilation.program?_eq_some.mp hc), hc⟩
  obtain ⟨c, h, hc⟩ := hcompile 0x1000 (by decide +kernel)
  obtain ⟨c', h', hc'⟩ := hcompile 0x2000 (by decide +kernel)
  have hcode : (compile {} helperProgram (fun _ => some 0x5000) #[] fun size =>
      .ok (.blank 0x1000 size)).program?.map (fun c => (c.code.drop 11, c.offsets)) =
        some ([0xE8, 0xF0, 0x3F, 0x00, 0x00, 0xC9, 0xC3], #[11, 16, 18]) := by
    decide +kernel
  have hcode' : (compile {} helperProgram (fun _ => some 0x5000) #[] fun size =>
      .ok (.blank 0x2000 size)).program?.map (fun c => c.code.drop 11) =
        some [0xE8, 0xF0, 0x2F, 0x00, 0x00, 0xC9, 0xC3] := by
    decide +kernel
  rw [hc, Option.map_some, Option.some.injEq, Prod.mk.injEq] at hcode
  rw [hc', Option.map_some, Option.some.injEq] at hcode'
  refine ⟨c, c', h, h', hcode.1, hcode', fun i hi => ?_⟩
  refine (final_pass_repeats.2.2 {} helperProgram c c' h h').2.2 i ?_ ?_
  · -- the only call is in the first slot, and its displacement ends at offset 16
    rintro ⟨k, id, subprogram, hk, hop, hle, hlt⟩
    have hoffset : ∀ k, c.offset k = (#[11, 16, 18] : Array Nat).getD k 0 := fun k => by
      rw [CompiledProgram.offset, hcode.2]
    rw [hoffset] at hle hlt
    have hk : k < 2 := hk
    rcases (by omega : k = 0 ∨ k = 1) with rfl | rfl
    · have h16 : (#[11, 16, 18] : Array Nat).getD (0 + 1) 0 = 16 := rfl
      omega
    · have hexit : helperProgram.operation? 1 = some .exit := by decide
      rw [hexit] at hop
      cases hop
  · rintro ⟨k, id, hk, hop, _⟩
    have hk : k < 2 := hk
    rcases (by omega : k = 0 ∨ k = 1) with rfl | rfl
    · have hcall : helperProgram.operation? 0 = some (.call 1 false) := by decide
      rw [hcall] at hop
      cases hop
    · have hexit : helperProgram.operation? 1 = some .exit := by decide
      rw [hexit] at hop
      cases hop

end NativeForge
