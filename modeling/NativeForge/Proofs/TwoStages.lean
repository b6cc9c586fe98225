import NativeForge.Proofs.FinalPass

/-!
# Compilation in two stages

A program that calls sub-programs without an address is laid out first and finished when the
addresses are known. The layout does not depend on addresses: a pass that does not know the address
of the image writes the same placeholder for every call, and fails only for a helper without an
address. So the pass that finishes the program is the final pass of a compilation that knew all
addresses from the start, and the two compilations differ only in the number of passes.
-/

namespace NativeForge

open X64 Virtual Target TailCall

/-- Every call of the program has an address. -/
def Virtual.Program.Resolved (p : Program) (resolve : CallSite → Option Address) : Prop :=
  ∀ k id subprogram, p.operation? k = some (.call id subprogram) →
    (resolve ⟨k, id, subprogram⟩).isSome = true

namespace Pass

variable {p q : Pass} {depth : UInt32} {index : Nat}

/-- Without an address of the image, the displacement of a call is a placeholder. -/
theorem callDisplacement_of_base_none (h : p.base = none) (before : Nat)
    (target : Option Address) : p.callDisplacement index before target = .ok 0 := by
  unfold callDisplacement
  rw [h]
  cases target <;> rfl

/-- A call that has an address is lowered again without an address of the image. -/
theorem call_of_resolved (ha : p.Akin q) (hbase : q.base = none) {id : Int32} {subprogram : Bool}
    {f : Fragment} (h : p.call depth index id subprogram = .ok f)
    (hr : (q.resolve ⟨index, id, subprogram⟩).isSome = true) :
    ∃ g, q.call depth index id subprogram = .ok g := by
  obtain ⟨_, counter, _, hc, _⟩ := call_eq_ok.mp h
  have hknown : ((q.resolve ⟨index, id, subprogram⟩).isNone && !subprogram) = false := by
    rw [Option.isNone_eq_false_iff.mpr hr, Bool.false_and]
  exact ⟨_, call_eq_ok.mpr ⟨hknown, counter, 0, (passCounter_akin ha).trans hc,
    callDisplacement_of_base_none hbase _ _, rfl⟩⟩

/-- An operation is lowered again without an address of the image, if it is no call or a call that
has an address. -/
theorem lower_of_resolved (ha : p.Akin q) (hbase : q.base = none) {epilogue : Option Nat}
    {operation : Operation} {f : Fragment}
    (hr : ∀ id subprogram, operation = .call id subprogram →
      (q.resolve ⟨index, id, subprogram⟩).isSome = true)
    (h : p.lower depth index epilogue operation = .ok f)
    (hrepeats : p.Repeats q index (codeSize f.code)) :
    ∃ g, q.lower depth index epilogue operation = .ok g := by
  by_cases hcall : ∃ id subprogram, operation = .call id subprogram
  · obtain ⟨id, subprogram, rfl⟩ := hcall
    exact call_of_resolved ha hbase h (hr id subprogram rfl)
  · exact ⟨f, lower_again_of_ne_call ha (fun id subprogram ho => hcall ⟨id, subprogram, ho⟩) h
      hrepeats⟩

/-- The calls among some steps have addresses. -/
def ResolvesSteps (q : Pass) (steps : List Step) : Prop :=
  ∀ s ∈ steps, ∀ id subprogram, s.operation = .ok (.call id subprogram) →
    (q.resolve ⟨s.index, id, subprogram⟩).isSome = true

/-- The calls of a program with addresses are calls of steps with addresses. -/
theorem resolvesSteps_of_resolved {program : Program} (h : program.Resolved q.resolve) :
    q.ResolvesSteps program.steps := by
  intro s hs id subprogram ho
  obtain ⟨before, after, hsplit⟩ := List.append_of_mem hs
  refine h s.index id subprogram ?_
  rw [Program.index_eq hsplit, Program.operation?_of_split hsplit, Step.operation?_eq_some]
  exact ho

/-- Steps are placed again without an address of the image, if their calls have addresses. -/
theorem place_of_resolved (ha : p.Akin q) (hbase : q.base = none)
    (hmax : q.maxInsnSize = p.maxInsnSize) (hoffsets : q.offsets = p.offsets)
    (hpadding : q.padding = p.padding) {steps : List Step} {start : Nat} {epilogue : Option Nat}
    {placed : List Placed} (hr : q.ResolvesSteps steps)
    (h : p.place depth steps start epilogue = .ok placed) :
    ∃ placed', q.place depth steps start epilogue = .ok placed' := by
  induction steps generalizing start epilogue placed with
  | nil => exact ⟨[], rfl⟩
  | cons step rest ih =>
    obtain ⟨operation, f, tail, ho, hl, hsize, ht, rfl⟩ := place_cons.mp h
    have hrepeats : p.Repeats q step.index (codeSize f.code) := ⟨hoffsets, .inl hpadding⟩
    obtain ⟨g, hg⟩ := lower_of_resolved ha hbase
      (fun id subprogram hcall => hr step (by simp) id subprogram (hcall ▸ ho)) hl hrepeats
    obtain ⟨halike, _⟩ := lower_again ha hl hrepeats hg
    obtain ⟨tail', ht'⟩ := ih (fun s hs => hr s (by simp [hs])) ht
    rw [← halike.codeSize_eq, ← halike.epilogue_eq] at ht'
    exact ⟨_, place_cons.mpr
      ⟨operation, g, tail', ho, hg, by rw [halike.codeSize_eq, hmax]; exact hsize, ht', rfl⟩⟩

/-- No call waits where all calls have addresses. -/
theorem place_pending {steps : List Step} {start : Nat} {epilogue : Option Nat}
    {placed : List Placed} (hr : q.ResolvesSteps steps)
    (h : q.place depth steps start epilogue = .ok placed) :
    ∀ f ∈ placed, f.fragment.pending = false := by
  induction steps generalizing start epilogue placed with
  | nil =>
    cases h
    simp
  | cons step rest ih =>
    obtain ⟨operation, f, tail, ho, hl, _, ht, rfl⟩ := place_cons.mp h
    have hhead : f.pending = false := by
      by_contra hne
      obtain ⟨id, subprogram, rfl, hnone⟩ := (lower_marks hl).2 (by simpa using hne)
      rw [hr step (by simp) id subprogram ho] at hnone
      cases hnone
    have htail := ih (fun s hs => hr s (by simp [hs])) ht
    intro g hg
    rcases List.mem_cons.mp hg with rfl | hg
    · exact hhead
    · exact htail g hg

/-- A pass over a program whose calls have addresses leaves no call waiting. -/
theorem run_pending {program : Program} {out : PassOutput} (hr : program.Resolved q.resolve)
    (h : q.run program.steps = .ok out) : out.pending = 0 := by
  obtain ⟨_, depth, placed, _, hp, rfl⟩ := run_eq_ok h
  have hnone := place_pending (resolvesSteps_of_resolved hr) hp
  exact List.countP_eq_zero.mpr fun f hf => by simp [hnone f hf]

end Pass

namespace Source

variable {s : Source} {resolve : CallSite → Option Address}

/-- A pass without an address of the image succeeds with every address for every call, and gives
one layout. -/
theorem run_of_resolved (hr : s.program.Resolved resolve) {offsets : Array Nat} {padding : Bool}
    {out : PassOutput} (h : s.run offsets none padding = .ok out) :
    ∃ out', { s with resolve := resolve }.run offsets none padding = .ok out' ∧
      out'.layout = out.layout := by
  have hplaced : ∃ out', { s with resolve := resolve }.run offsets none padding = .ok out' := by
    unfold Source.run Pass.run at h ⊢
    split at h
    · exact absurd h (defect_ne_ok _ _)
    · rename_i hsize
      split at h
      · exact absurd h (crash_ne_ok _)
      · rename_i hlimit
        obtain ⟨depth, hd, h⟩ := bind_eq_ok.mp h
        obtain ⟨placed, hp, _⟩ := bind_eq_ok.mp h
        have ha : (s.pass offsets none padding).Akin
            ({ s with resolve := resolve }.pass offsets none padding) := ⟨rfl, rfl, rfl⟩
        obtain ⟨placed', hp'⟩ := Pass.place_of_resolved ha rfl rfl rfl rfl
          (Pass.resolvesSteps_of_resolved hr) hp
        exact ⟨_, (if_neg hsize).trans ((if_neg hlimit).trans
          (bind_eq_ok.mpr ⟨depth, hd, bind_eq_ok.mpr ⟨placed', hp', rfl⟩⟩))⟩
  obtain ⟨out', h'⟩ := hplaced
  exact ⟨out', h', layout_of_resolve h h'⟩

/-- Passes that settle do so with every address for every call. -/
theorem settle_of_resolved (hr : s.program.Resolved resolve) {remaining number : Nat}
    {previous : Layout} {settled : Settled}
    (h : s.settle remaining number previous = .ok settled) :
    { s with resolve := resolve }.settle remaining number previous = .ok settled := by
  induction remaining generalizing number previous with
  | zero => exact absurd h (defect_ne_ok _ _)
  | succ remaining ih =>
    rw [settle_succ] at h ⊢
    obtain ⟨out, ho, h⟩ := bind_eq_ok.mp h
    obtain ⟨out', ho', hlayout⟩ := run_of_resolved hr ho
    refine bind_eq_ok.mpr ⟨out', ho', ?_⟩
    rw [hlayout]
    by_cases hsame : out.layout = previous
    · rw [if_pos hsame] at h ⊢
      exact h
    · rw [if_neg hsame] at h ⊢
      exact ih h

/-- The layout of a program is the same with every address for every call. -/
theorem layout_of_resolved {config : Config} {program : Program}
    {first : CallSite → Option Address} {settled : Settled} (hr : program.Resolved resolve)
    (h : (sourceOf config program first).layout = .ok settled) :
    (sourceOf config program resolve).layout = .ok settled := by
  unfold Source.layout at h ⊢
  split at h
  · exact absurd h (defect_ne_ok _ _)
  · rename_i hempty
    obtain ⟨start, hs, h⟩ := bind_eq_ok.mp h
    have hempty' : ¬(sourceOf config program resolve).program.insns.isEmpty = true := hempty
    rw [if_neg hempty']
    exact bind_eq_ok.mpr ⟨start, hs, settle_of_resolved (s := sourceOf config program first) hr h⟩

end Source

/-- A program that waits, and everything that its compilation went through. -/
theorem compile_waits {config : Config} {program : Program} {resolve : CallSite → Option Address}
    {tables : Array Table} {alloc : Nat → Result MemoryError Image} {p : PendingProgram}
    (h : (compile config program resolve tables alloc).outcome = .ok (.pending p)) :
    ∃ settled size,
      (sourceOf config program resolve).layout = .ok settled ∧
      imageSize settled.layout.size program.probeCount = (.ok size : Result Error Nat) ∧
      (compile config program resolve tables alloc).asked = some size ∧
      allocate alloc size = .ok p.image ∧
      p.config = config ∧ p.frame = Frame.ofProgram program ∧ p.layout = settled.layout ∧
      p.padding = (sourceOf config program resolve).padded settled.passes ∧
      p.passes = settled.passes + 1 := by
  unfold compile at h ⊢
  dsimp only at h ⊢
  split at h
  · cases h
  · rename_i settled hs
    split at h
    · cases h
    · rename_i size hsize
      split at h
      · cases h
      · rename_i image hi
        unfold emitFinal at h ⊢
        dsimp only at h ⊢
        split at h
        · cases h
        · split at h
          · cases h
          · split at h
            · exact absurd h finalize_ne_pending
            · rename_i hp
              rw [if_neg hp]
              cases h
              exact ⟨settled, size, hs, hsize, rfl, hi, rfl, rfl, rfl, rfl, rfl⟩

/-- The program that waits behind a compilation, if one does. -/
def Compilation.waiting? (c : Compilation) : Option PendingProgram :=
  match c.outcome with
  | .ok (.pending program) => some program
  | _ => none

/-- A program waits behind a compilation exactly when that is its outcome. -/
theorem Compilation.waiting?_eq_some {c : Compilation} {program : PendingProgram} :
    c.waiting? = some program ↔ c.outcome = .ok (.pending program) := by
  unfold Compilation.waiting?
  split
  · rename_i h
    rw [h]
    simp
  · rename_i h
    simp only [reduceCtorEq, false_iff]
    exact h program

/-- A compilation at once and one in two stages end the same way: they asked for the same memory,
left the same descriptors and the same tables, and failed with the same failure or gave the same
program. The two stages take one pass more. -/
structure Compilation.SameLater (once later : Compilation) : Prop where
  /-- The same size was asked for. -/
  asked_eq : later.asked = once.asked
  /-- The tail calls have the same sites. -/
  descriptors_eq : later.descriptors = once.descriptors
  /-- The tables hold and track the same. -/
  tables_eq : later.tables = once.tables
  /-- The outcomes are the same but for the number of passes. -/
  outcome_eq : (∃ f, once.outcome = .error f ∧ later.outcome = .error f) ∨
    ∃ c, once.outcome = .ok (.compiled c) ∧
      later.outcome = .ok (.compiled { c with passes := c.passes + 1 })

/-- The number of passes does not matter to a program that is finalized. -/
theorem finalize_sameLater (program : Program) (tables : Array Table) (asked : Option Nat)
    (layout : Layout) (passes : Nat) (image : Image) (out : PassOutput) :
    (finalize program tables asked layout passes image out).SameLater
      (finalize program tables asked layout (passes + 1) image out) := by
  unfold finalize
  split
  · exact ⟨rfl, rfl, rfl, .inl ⟨_, rfl, rfl⟩⟩
  · dsimp only
    split
    · exact ⟨rfl, rfl, rfl, .inl ⟨_, rfl, rfl⟩⟩
    · exact ⟨rfl, rfl, rfl, .inr ⟨_, rfl, rfl⟩⟩

/-- The allocator answers a request with a writable block where the image is, which the system
treats in the same way. -/
def PlacesAt (alloc : Nat → Result MemoryError Image) (size : Nat) (image : Image) : Prop :=
  ∃ block, alloc size = .ok block ∧ block.base = image.base ∧ block.size = image.size ∧
    block.executable = false ∧ block.lockable = image.lockable

/-- Filled blocks at one place are the same. -/
theorem allocate_of_placesAt {alloc alloc' : Nat → Result MemoryError Image} {size : Nat}
    {image : Image} (h : allocate alloc size = .ok image) (hp : PlacesAt alloc' size image) :
    allocate alloc' size = .ok image := by
  obtain ⟨block, hb, hbase, hsize, hx, hlock⟩ := hp
  obtain ⟨first, _, hfill⟩ := bind_eq_ok.mp (mapCause_eq_ok.mp h)
  refine mapCause_eq_ok.mpr (bind_eq_ok.mpr ⟨block, hb, ?_⟩)
  unfold Image.fill at hfill ⊢
  split at hfill
  · exact absurd hfill (report_ne_ok _ _)
  · rename_i hfirst
    obtain rfl := Except.ok.inj hfill
    have hcount : block.size = first.size := hsize.trans (by simp [Image.size])
    rw [hx, hcount]
    simp only [Bool.false_eq_true, if_false, Except.ok.injEq, Image.mk.injEq]
    exact ⟨hbase, trivial, by simpa using hfirst, hlock⟩

/-- A program that waits is finished by the final pass of a compilation that has all addresses. -/
theorem finish_sameLater {config : Config} {program : Program}
    {first resolve : CallSite → Option Address} {before tables : Array Table}
    {alloc alloc' : Nat → Result MemoryError Image} {p : PendingProgram}
    (h : (compile config program first before alloc).outcome = .ok (.pending p))
    (hr : program.Resolved resolve)
    (hplaces : ∀ size, (compile config program first before alloc).asked = some size →
      PlacesAt alloc' size p.image) :
    (compile config program resolve tables alloc').SameLater
      (p.finish program resolve tables (compile config program first before alloc).asked) := by
  obtain ⟨settled, size, hlayout, hsize, hasked, halloc, hconfig, hframe, hplayout, hpadding,
    hpasses⟩ := compile_waits h
  have hlayout' := Source.layout_of_resolved hr hlayout
  have halloc' := allocate_of_placesAt halloc (hplaces size hasked)
  have hsource : (⟨p.config, program, p.frame, resolve⟩ : Source) =
      sourceOf config program resolve := by
    rw [hconfig, hframe]
    rfl
  rw [hasked]
  unfold compile PendingProgram.finish
  dsimp only
  rw [show (⟨config, program, Frame.ofProgram program, resolve⟩ : Source) =
    sourceOf config program resolve from rfl, hlayout', hsource, hplayout, hpadding, hpasses]
  dsimp only
  rw [hsize]
  dsimp only
  rw [halloc']
  unfold emitFinal
  dsimp only
  have hpadded : (sourceOf config program first).padded settled.passes =
      (sourceOf config program resolve).padded settled.passes := rfl
  rw [hpadded]
  cases hrun : (sourceOf config program resolve).run settled.layout.offsets (some p.image.base)
      ((sourceOf config program resolve).padded settled.passes) with
  | error f => exact ⟨rfl, rfl, rfl, .inl ⟨f, rfl, rfl⟩⟩
  | ok out =>
    dsimp only
    rw [checkFinal_of_settled hlayout' hrun]
    dsimp only
    have hnone : out.pending = 0 := Pass.run_pending hr hrun
    rw [if_pos hnone, if_pos hnone]
    exact finalize_sameLater ..

/-- A program that waits is finished without a check that fails, whatever the addresses are. -/
theorem finish_checked {config : Config} {program : Program}
    {first resolve : CallSite → Option Address} {before tables : Array Table}
    {alloc : Nat → Result MemoryError Image} {p : PendingProgram} {asked : Option Nat}
    (h : (compile config program first before alloc).outcome = .ok (.pending p)) {d : Defect}
    (hd : (p.finish program resolve tables asked).outcome = .error (.reported (.internal d))) :
    (∀ size settled, d ≠ .finalLength size settled) ∧ d ≠ .finalOffsets := by
  obtain ⟨settled, _, hlayout, _, _, _, hconfig, hframe, hplayout, hpadding, _⟩ := compile_waits h
  -- the stages around the check report other defects
  have hstages : ∀ stages : List Stage, Stage.driver ∉ stages →
      Failure.From stages (.reported (.internal d)) →
      (∀ size settled, d ≠ .finalLength size settled) ∧ d ≠ .finalOffsets := by
    intro stages hnot hfrom
    have hstage : d.stage ∈ stages := hfrom
    refine ⟨fun size settled hlength => ?_, fun hoffsets => ?_⟩
    · rw [hlength] at hstage
      exact hnot hstage
    · rw [hoffsets] at hstage
      exact hnot hstage
  unfold PendingProgram.finish at hd
  dsimp only at hd
  split at hd
  · rename_i f hf
    cases hd
    exact hstages _ (by decide) (Pass.run_failsOnly _ program _ hf)
  · rename_i out hrun
    split at hd
    · rename_i f hf
      -- the final pass repeats the pass that settled, also with other addresses
      rw [hplayout, hpadding, hconfig, hframe] at hrun
      obtain ⟨padding, settledOut, hr, hsettled, hp⟩ := Source.run_of_settled hlayout
      have hkept : settledOut.offsets = settled.layout.offsets := congrArg Layout.offsets hsettled
      have hsize : settledOut.code.size = settled.layout.size := congrArg Layout.size hsettled
      have ha : ((sourceOf config program first).pass settled.layout.offsets none padding).Akin
          ((sourceOf config program resolve).pass settled.layout.offsets (some p.image.base)
            ((sourceOf config program first).padded settled.passes)) := ⟨rfl, rfl, rfl⟩
      have hrepeats := (PassOutput.repeats_of_run ha
        ⟨rfl, hp.imp_right fun hpad => ⟨hpad, hkept⟩⟩ hr hrun).1
      rw [hplayout] at hf
      unfold checkFinal at hf
      rw [if_neg (by rw [hrepeats.size_eq, hsize]; simp),
        if_neg (by rw [hrepeats.offsets_eq, hkept]; simp)] at hf
      cases hf
    · split at hd
      · exact hstages _ (by decide) (finalize_failsOnly _ _ _ _ _ _ _ _ hd)
      · cases hd
        simp

/-- Where a compilation gives a program that waits, finishing that program with an address for every
call ends as the compilation with these addresses does in a block at the same place: with the same
failure, or with the same image, offsets, exception table and installed tail calls. -/
theorem two_stages_equal_one {config : Config} {program : Program}
    {first : CallSite → Option Address} {before : Array Table}
    {alloc : Nat → Result MemoryError Image} {p : PendingProgram}
    (h : (compile config program first before alloc).outcome = .ok (.pending p)) :
    (∃ size, (compile config program first before alloc).asked = some size ∧
      ∀ resolve tables alloc', program.Resolved resolve → PlacesAt alloc' size p.image →
        (compile config program resolve tables alloc').SameLater
          (p.finish program resolve tables (some size))) ∧
    ∀ resolve tables asked,
      (∀ size settled, (p.finish program resolve tables asked).outcome ≠
        .error (.reported (.internal (.finalLength size settled)))) ∧
      (p.finish program resolve tables asked).outcome ≠
        .error (.reported (.internal .finalOffsets)) := by
  obtain ⟨_, size, _, _, hasked, _⟩ := compile_waits h
  refine ⟨⟨size, hasked, fun resolve tables alloc' hr hplaces => ?_⟩,
    fun resolve tables asked => ⟨fun _ _ hd => ?_, fun hd => ?_⟩⟩
  · rw [← hasked]
    refine finish_sameLater h hr fun size' hsize => ?_
    obtain rfl : size = size' := Option.some.inj (hasked.symm.trans hsize)
    exact hplaces
  · exact (finish_checked h hd).1 _ _ rfl
  · exact (finish_checked h hd).2 rfl

/-- A call of a sub-program, a fault-tolerant load, a direct tail call, and an exit. -/
def gatedProgram : Program where
  name := "gated"
  insns := [⟨0x85, 0, 1, 0, 1⟩, ⟨0x39, 1, 2, 8, 0⟩, ⟨0xF5, 0, 0, 0, 1⟩, ⟨0x95, 0, 0, 0, 0⟩]
  descriptors := [{ table := 0, key := 0 }]

/-- The program is finished in four passes to what three passes give at once. -/
theorem two_stages_gatedProgram :
    ∃ p c, (compile {} gatedProgram (fun _ => none) #[] fun size =>
        .ok (.blank 0x1000 size)).outcome = .ok (.pending p) ∧
      (compile {} gatedProgram (fun _ => some 0x5000) #[{ maxEntries := 1 }] fun size =>
        .ok { base := 0x1000, bytes := Array.replicate size 7 }).outcome = .ok (.compiled c) ∧
      c.passes = 3 ∧ c.installed = [(0, 1)] ∧ c.exceptions.entries.length = 1 ∧
      (p.finish gatedProgram (fun _ => some 0x5000) #[{ maxEntries := 1 }] (some 76)).outcome =
        .ok (.compiled { c with passes := 4 }) := by
  have hwaits : (compile {} gatedProgram (fun _ => none) #[] fun size =>
      .ok (.blank 0x1000 size)).waiting?.map (fun p =>
        (p.image.base, p.image.size, p.image.lockable)) = some (0x1000, 76, true) := by
    decide +kernel
  have hasked : (compile {} gatedProgram (fun _ => none) #[] fun size =>
      .ok (.blank 0x1000 size)).asked = some 76 := by
    decide +kernel
  have honce : (compile {} gatedProgram (fun _ => some 0x5000) #[{ maxEntries := 1 }] fun size =>
      .ok { base := 0x1000, bytes := Array.replicate size 7 }).program?.map (fun c =>
        (c.passes, c.installed, c.exceptions.entries.length)) = some (3, [(0, 1)], 1) := by
    decide +kernel
  obtain ⟨p, hp, hplace⟩ := Option.map_eq_some_iff.mp hwaits
  obtain ⟨c, hc, hshape⟩ := Option.map_eq_some_iff.mp honce
  obtain ⟨hpasses, hshape⟩ := Prod.mk.inj hshape
  obtain ⟨hinstalled, hentries⟩ := Prod.mk.inj hshape
  obtain ⟨hbase, hplace⟩ := Prod.mk.inj hplace
  obtain ⟨hsize, hlock⟩ := Prod.mk.inj hplace
  have hpending := Compilation.waiting?_eq_some.mp hp
  have hcompiled := Compilation.program?_eq_some.mp hc
  obtain ⟨⟨size, hsize', hsame⟩, _⟩ := two_stages_equal_one hpending
  obtain rfl : size = 76 := Option.some.inj (hsize'.symm.trans hasked)
  have hlater := (hsame (fun _ => some 0x5000) #[{ maxEntries := 1 }]
    (fun size => .ok { base := 0x1000, bytes := Array.replicate size 7 }) (fun _ _ _ _ => rfl)
    ⟨_, rfl, hbase.symm, hsize.symm, rfl, hlock.symm⟩).outcome_eq
  refine ⟨p, c, hpending, hcompiled, hpasses, hinstalled, hentries, ?_⟩
  rcases hlater with ⟨f, hf, _⟩ | ⟨c', hc', hfinish⟩
  · rw [hcompiled] at hf
    cases hf
  · rw [hcompiled] at hc'
    cases hc'
    rw [hfinish, hpasses]

end NativeForge
