import NativeForge.Proofs.Layout
import NativeForge.Proofs.Writing

/-!
# What a compilation emits

A successful compilation ends with one final pass. Its offsets are those it worked from, its code
and its exception table are written into the image, and then the direct tail calls are installed.
`Emits` collects these facts, for a program compiled at once and for a program finished later.
-/

namespace NativeForge

open X64 Virtual Target TailCall

/-- The final pass of a compilation and the image it was written to, before tail calls were
installed. -/
structure Emission where
  /-- The final pass. -/
  pass : Pass
  /-- What the final pass gave. -/
  out : PassOutput
  /-- The image with code and exception table. -/
  written : Image
  /-- The exception table. -/
  exceptions : ExceptionTable

/-- The installation that starts from an emission. -/
def Emission.start (e : Emission) (program : Program) (tables : Array Table) : Installation :=
  { descriptors := program.descriptors, tables := tables, image := e.written }

/-- A compilation from given tables gave a compiled program, by way of an emission. -/
structure Emits (source : Source) (tables : Array Table) (e : Emission) (done : Installation)
    (c : CompiledProgram) : Prop where
  /-- The final pass worked from the offsets that the compiled program has. -/
  pass_eq : ∃ padding, e.pass = source.pass c.offsets (some e.written.base) padding
  /-- The final pass gave its output. -/
  run_eq : e.pass.run source.program.steps = .ok e.out
  /-- The final pass kept the offsets it worked from. -/
  offsets_eq : e.out.offsets = c.offsets
  /-- The compiled program has the length of the final pass. -/
  size_eq : e.out.code.size = c.size
  /-- The output was written into a fresh image. -/
  written_eq : ∃ fresh,
    writeImage fresh e.out source.program.probeCount = .ok (e.written, e.exceptions)
  /-- The direct tail calls were installed. -/
  installed_eq : (e.start source.program tables).run e.out.direct = (done, .ok ())
  /-- The image is the installed one, made executable. -/
  image_eq : c.image = { done.image with executable := true }
  /-- The compiled program knows what was installed. -/
  tokens_eq : c.installed = done.installed

/-- The final check lets only the settled layout pass. -/
theorem checkFinal_eq_ok {layout : Layout} {out : PassOutput}
    (h : checkFinal layout out = .ok ()) :
    out.code.size = layout.size ∧ out.offsets = layout.offsets := by
  unfold checkFinal at h
  split at h
  · exact absurd h (defect_ne_ok _ _)
  · split at h
    · exact absurd h (defect_ne_ok _ _)
    · exact ⟨by simp_all, by simp_all⟩

namespace Installation

variable {s s' : Installation} {direct : List DirectSite}

/-- A complete installation was run to its end, and its image is executable. -/
theorem complete_eq_ok {image : Image} (h : s.complete direct = (s', .ok image)) :
    s.run direct = (s', .ok ()) ∧ image = { s'.image with executable := true } := by
  unfold complete at h
  split at h
  · cases h
  · rename_i done hrun
    obtain ⟨rfl, himage⟩ := Prod.mk.inj h
    exact ⟨hrun, Image.makeExecutable_eq_ok (mapCause_eq_ok.mp himage)⟩

/-- An installation that is not complete failed on its way, or the system refused its image. -/
theorem complete_eq_error {f : Failure Error} (h : s.complete direct = (s', .error f)) :
    s.run direct = (s', .error f) ∨
      s.run direct = (s', .ok ()) ∧ f = .reported (.outOfMemory .protectionFailed) := by
  unfold complete at h
  split at h
  · rename_i hrun
    cases h
    exact .inl hrun
  · rename_i done hrun
    obtain ⟨rfl, hlock⟩ := Prod.mk.inj h
    refine .inr ⟨hrun, ?_⟩
    cases hm : done.image.makeExecutable with
    | ok image =>
      rw [hm] at hlock
      cases hlock
    | error g =>
      rw [hm, Image.makeExecutable_eq_error hm] at hlock
      exact (Except.error.inj hlock).symm

end Installation

/-- A finalized program was written, installed and made executable. -/
theorem finalize_compiled {program : Program} {tables : Array Table} {asked : Option Nat}
    {layout : Layout} {passes : Nat} {image : Image} {out : PassOutput} {c : CompiledProgram}
    (h : (finalize program tables asked layout passes image out).outcome = .ok (.compiled c)) :
    ∃ written exceptions done,
      writeImage image out program.probeCount = .ok (written, exceptions) ∧
      Installation.run { descriptors := program.descriptors, tables, image := written } out.direct =
        (done, .ok ()) ∧
      c = { name := program.name, image := { done.image with executable := true },
            size := layout.size, offsets := layout.offsets, passes, exceptions,
            installed := done.installed } ∧
      (finalize program tables asked layout passes image out).tables = done.tables ∧
      (finalize program tables asked layout passes image out).descriptors = done.descriptors := by
  unfold finalize at h ⊢
  split at h
  · cases h
  · rename_i written exceptions hw
    dsimp only at h ⊢
    split at h
    · cases h
    · rename_i done _ hd
      cases h
      obtain ⟨hrun, rfl⟩ := Installation.complete_eq_ok hd
      exact ⟨written, exceptions, done, hw, hrun, rfl, rfl, rfl⟩

/-- A finalized program never waits. -/
theorem finalize_ne_pending {program : Program} {tables : Array Table} {asked : Option Nat}
    {layout : Layout} {passes : Nat} {image : Image} {out : PassOutput} {p : PendingProgram} :
    (finalize program tables asked layout passes image out).outcome ≠ .ok (.pending p) := by
  unfold finalize
  split
  · simp
  · dsimp only
    split
    · simp
    · simp

/-- The tables of a compilation that failed: as they were, or with everything released that an
installation had recorded, up to its end or to the tail call where it failed. -/
def Undone (tables tables' : Array Table) : Prop :=
  tables' = tables ∨ ∃ (start stopped : Installation) (sites : List DirectSite)
    (r : Result Error Unit), start.tables = tables ∧ start.installed = [] ∧
      start.run sites = (stopped, r) ∧ tables' = release stopped.tables stopped.installed

/-- A program that could not be finalized left nothing installed. -/
theorem finalize_failed {program : Program} {tables : Array Table} {asked : Option Nat}
    {layout : Layout} {passes : Nat} {image : Image} {out : PassOutput} {f : Failure Error}
    (h : (finalize program tables asked layout passes image out).outcome = .error f) :
    Undone tables (finalize program tables asked layout passes image out).tables := by
  unfold finalize at h ⊢
  split at h
  · exact .inl rfl
  · dsimp only at h ⊢
    split at h
    · rename_i stopped failure hr
      rcases Installation.complete_eq_error hr with hr | ⟨hr, _⟩
      · exact .inr ⟨_, stopped, out.direct, _, rfl, rfl, hr, rfl⟩
      · exact .inr ⟨_, stopped, out.direct, _, rfl, rfl, hr, rfl⟩
    · cases h

/-- A final pass that keeps a layout, and the program finalized from it, are an emission. -/
theorem emits_of_finalize {source : Source} {tables : Array Table} {asked : Option Nat}
    {layout : Layout} {passes : Nat} {image : Image} {padding : Bool} {out : PassOutput}
    {c : CompiledProgram}
    (hr : source.run layout.offsets (some image.base) padding = .ok out)
    (hc : checkFinal layout out = .ok ())
    (h : (finalize source.program tables asked layout passes image out).outcome =
      .ok (.compiled c)) :
    ∃ e done, Emits source tables e done c ∧ e.out = out ∧
      writeImage image out source.program.probeCount = .ok (e.written, e.exceptions) ∧
      (finalize source.program tables asked layout passes image out).tables = done.tables ∧
      (finalize source.program tables asked layout passes image out).descriptors =
        done.descriptors := by
  obtain ⟨written, exceptions, done, hw, hd, rfl, ht, hds⟩ := finalize_compiled h
  obtain ⟨hsize, hoffsets⟩ := checkFinal_eq_ok hc
  have hbase : written.base = image.base := (writeImage_eq_ok hw).1.base_eq
  refine ⟨⟨source.pass layout.offsets (some image.base) padding, out, written, exceptions⟩, done,
    ?_, rfl, hw, ht, hds⟩
  exact {
    pass_eq := ⟨padding, by rw [hbase]⟩
    run_eq := hr
    offsets_eq := hoffsets
    size_eq := hsize
    written_eq := ⟨image, hw⟩
    installed_eq := hd
    image_eq := rfl
    tokens_eq := rfl }

/-- The program that a compilation gave, if it gave one. -/
def Compilation.program? (c : Compilation) : Option CompiledProgram :=
  match c.outcome with
  | .ok (.compiled program) => some program
  | _ => none

/-- A compilation gave a program exactly when that is its outcome. -/
theorem Compilation.program?_eq_some {c : Compilation} {program : CompiledProgram} :
    c.program? = some program ↔ c.outcome = .ok (.compiled program) := by
  unfold Compilation.program?
  split
  · rename_i h
    rw [h]
    simp
  · rename_i h
    simp only [reduceCtorEq, false_iff]
    exact h program

/-- The cause that a compilation reports. -/
def Compilation.cause? (c : Compilation) : Option Error :=
  match c.outcome with
  | .error (.reported cause) => some cause
  | _ => none

/-- A compilation reports a cause exactly when that is its outcome. -/
theorem Compilation.cause?_eq_some {c : Compilation} {cause : Error} :
    c.cause? = some cause ↔ c.outcome = .error (.reported cause) := by
  unfold Compilation.cause?
  split
  · rename_i h
    rw [h]
    simp
  · rename_i h
    simp only [reduceCtorEq, false_iff]
    exact h cause

/-- What a compilation works from. -/
def sourceOf (config : Config) (program : Program) (resolve : CallSite → Option Address) : Source :=
  ⟨config, program, Frame.ofProgram program, resolve⟩

/-- A program that was compiled at once was emitted. -/
theorem compile_emits {config : Config} {program : Program} {resolve : CallSite → Option Address}
    {tables : Array Table} {alloc : Nat → Result MemoryError Image} {c : CompiledProgram}
    (h : (compile config program resolve tables alloc).outcome = .ok (.compiled c)) :
    ∃ e done, Emits (sourceOf config program resolve) tables e done c ∧
      (compile config program resolve tables alloc).tables = done.tables ∧
      (compile config program resolve tables alloc).descriptors = done.descriptors ∧
      ∃ size fresh, allocate alloc size = .ok fresh ∧
        writeImage fresh e.out program.probeCount = .ok (e.written, e.exceptions) := by
  unfold compile at h ⊢
  dsimp only at h ⊢
  split at h
  · cases h
  · split at h
    · cases h
    · rename_i size _
      split at h
      · cases h
      · rename_i image hi
        unfold emitFinal at h ⊢
        dsimp only at h ⊢
        split at h
        · cases h
        · rename_i out hr
          split at h
          · cases h
          · rename_i hc
            split at h
            · rename_i hp
              rw [if_pos hp]
              obtain ⟨e, done, he, rfl, hw, ht, hds⟩ := emits_of_finalize hr hc h
              exact ⟨e, done, he, ht, hds, size, image, hi, hw⟩
            · cases h

/-- A program that waits has the frame and the image that its compilation gave it, and the
compilation changed neither tables nor descriptors. -/
theorem compile_pending {config : Config} {program : Program}
    {resolve : CallSite → Option Address} {tables : Array Table}
    {alloc : Nat → Result MemoryError Image} {p : PendingProgram}
    (h : (compile config program resolve tables alloc).outcome = .ok (.pending p)) :
    p.config = config ∧ p.frame = Frame.ofProgram program ∧
      (compile config program resolve tables alloc).tables = tables ∧
      (compile config program resolve tables alloc).descriptors = program.descriptors ∧
      ∃ size, allocate alloc size = .ok p.image := by
  unfold compile at h ⊢
  dsimp only at h ⊢
  split at h
  · cases h
  · split at h
    · cases h
    · rename_i size _
      split at h
      · cases h
      · rename_i image hi
        unfold emitFinal at h ⊢
        dsimp only at h ⊢
        split at h
        · cases h
        · split at h
          · cases h
          · split at h
            · exact absurd h finalize_ne_pending
            · rename_i hp
              rw [if_neg hp]
              cases h
              exact ⟨rfl, rfl, rfl, rfl, size, hi⟩

/-- A compilation that failed left nothing installed. -/
theorem compile_failed {config : Config} {program : Program}
    {resolve : CallSite → Option Address} {tables : Array Table}
    {alloc : Nat → Result MemoryError Image} {f : Failure Error}
    (h : (compile config program resolve tables alloc).outcome = .error f) :
    Undone tables (compile config program resolve tables alloc).tables := by
  unfold compile at h ⊢
  dsimp only at h ⊢
  split at h
  · exact .inl rfl
  · split at h
    · exact .inl rfl
    · split at h
      · exact .inl rfl
      · unfold emitFinal at h ⊢
        dsimp only at h ⊢
        split at h
        · exact .inl rfl
        · split at h
          · exact .inl rfl
          · split at h
            · rename_i hp
              rw [if_pos hp]
              exact finalize_failed h
            · cases h

/-- A program that could not be finished left nothing installed. -/
theorem finish_failed {p : PendingProgram} {program : Program}
    {resolve : CallSite → Option Address} {tables : Array Table} {asked : Option Nat}
    {f : Failure Error} (h : (p.finish program resolve tables asked).outcome = .error f) :
    Undone tables (p.finish program resolve tables asked).tables := by
  unfold PendingProgram.finish at h ⊢
  dsimp only at h ⊢
  split at h
  · exact .inl rfl
  · split at h
    · exact .inl rfl
    · split at h
      · rename_i hp
        rw [if_pos hp]
        exact finalize_failed h
      · rename_i hp
        rw [if_neg hp]
        exact .inl rfl

/-- A program that was finished does not wait any longer. -/
theorem finish_ne_pending {p q : PendingProgram} {program : Program}
    {resolve : CallSite → Option Address} {tables : Array Table} {asked : Option Nat} :
    (p.finish program resolve tables asked).outcome ≠ .ok (.pending q) := by
  unfold PendingProgram.finish
  dsimp only
  split
  · simp
  · split
    · simp
    · split
      · exact finalize_ne_pending
      · simp

/-- A program that was finished later was emitted. -/
theorem finish_emits {p : PendingProgram} {program : Program}
    {resolve : CallSite → Option Address} {tables : Array Table} {asked : Option Nat}
    {c : CompiledProgram}
    (h : (p.finish program resolve tables asked).outcome = .ok (.compiled c)) :
    ∃ e done, Emits ⟨p.config, program, p.frame, resolve⟩ tables e done c ∧
      (p.finish program resolve tables asked).tables = done.tables ∧
      (p.finish program resolve tables asked).descriptors = done.descriptors ∧
      writeImage p.image e.out program.probeCount = .ok (e.written, e.exceptions) := by
  unfold PendingProgram.finish at h ⊢
  dsimp only at h ⊢
  split at h
  · cases h
  · rename_i out hr
    split at h
    · cases h
    · rename_i hc
      split at h
      · rename_i hp
        rw [if_pos hp]
        obtain ⟨e, done, he, rfl, hw, ht, hds⟩ := emits_of_finalize hr hc h
        exact ⟨e, done, he, ht, hds, hw⟩
      · cases h

end NativeForge
