import NativeForge.Proofs.FailedCompilations
import NativeForge.Proofs.Causes

/-!
# Sites recorded by failed compilations

An installation writes the site of a direct tail call into its descriptor before the table of the
descriptor accepts it, and a failure takes no site back. So a compilation that fails while it
installs leaves the descriptors of the tail calls up to the refused one with sites in the image that
is given up, and one whose image cannot be made executable leaves sites in all of them. A
compilation that fails before leaves every descriptor as it was, and no compilation changes the
table or the key of a descriptor.
-/

namespace NativeForge

open X64 Virtual Target TailCall

namespace TailCall

/-- The site that the last one of some direct tail calls through a descriptor has in an image. -/
def lastSite (base : Address) (reached : List DirectSite) (n : Nat) : Option PatchSite :=
  reached.reverse.findSome? fun d =>
    if d.descriptor = n then (d.place base : Result Error PatchSite).toOption else none

/-- No tail call has no site. -/
@[simp]
theorem lastSite_nil (base : Address) (n : Nat) : lastSite base [] n = none := rfl

/-- Of tail calls one behind the other the later ones count first. -/
theorem lastSite_append (base : Address) (front back : List DirectSite) (n : Nat) :
    lastSite base (front ++ back) n = (lastSite base back n).or (lastSite base front n) := by
  unfold lastSite
  rw [List.reverse_append, List.findSome?_append]

/-- The site of one tail call. -/
theorem lastSite_singleton (base : Address) (d : DirectSite) (n : Nat) :
    lastSite base [d] n =
      if d.descriptor = n then (d.place base : Result Error PatchSite).toOption else none := by
  simp [lastSite]

/-- Descriptors before and after some direct tail calls were reached: each has its table and its
key, and the site of the last tail call through it, if there is one. -/
def Recorded (base : Address) (reached : List DirectSite) (before after : List Descriptor) : Prop :=
  ∀ n, after[n]? = before[n]?.map fun x : Descriptor =>
    { x with site := (lastSite base reached n).or x.site }

namespace Recorded

variable {base : Address} {reached more : List DirectSite} {before between after : List Descriptor}

/-- Without tail calls nothing is recorded. -/
theorem nil (base : Address) (before : List Descriptor) : Recorded base [] before before := by
  intro n
  simp

/-- Tail calls are recorded one after the other. -/
theorem trans (h : Recorded base reached before between) (g : Recorded base more between after) :
    Recorded base (reached ++ more) before after := by
  intro n
  rw [g n, h n, Option.map_map, lastSite_append]
  congr 1
  funext x
  simp [Option.or_assoc]

/-- The descriptors are as before exactly when they held the recorded sites already. -/
theorem eq_iff (h : Recorded base reached before after) :
    after = before ↔ ∀ n x site, before[n]? = some x → lastSite base reached n = some site →
      x.site = some site := by
  constructor
  · rintro rfl n x site hx hsite
    have hn := h n
    rw [hx, Option.map_some, hsite, Option.some_or, Option.some.injEq] at hn
    exact congrArg Descriptor.site hn
  · intro hall
    refine List.ext_getElem? fun n => ?_
    rw [h n]
    cases hx : before[n]? with
    | none => rfl
    | some x =>
      rw [Option.map_some]
      cases hsite : lastSite base reached n with
      | none => rfl
      | some site => rw [Option.some_or, ← hall n x site hx hsite]

end Recorded

end TailCall

namespace Installation

variable {s s' : Installation}

/-- Recording a site in a descriptor. -/
theorem recorded_set {base : Address} {d : DirectSite} {site : PatchSite} {x : Descriptor}
    {before : List Descriptor} (hsite : (d.place base : Result Error PatchSite) = .ok site)
    (hx : before[d.descriptor]? = some x) :
    Recorded base [d] before (before.set d.descriptor { x with site := some site }) := by
  intro n
  rw [lastSite_singleton, hsite, List.getElem?_set]
  by_cases hn : d.descriptor = n
  · subst hn
    rw [if_pos rfl, if_pos rfl, if_pos (List.getElem?_eq_some_iff.mp hx).1, hx]
    rfl
  · rw [if_neg hn, if_neg hn]
    simp

/-- Installing a tail call keeps the address of the image and records the site of the call, also
when its table refuses it. -/
theorem recorded_step (s : Installation) (d : DirectSite) :
    Recorded s.image.base [d] s.descriptors (s.step d).1.descriptors := by
  have hnone : ((d.place s.image.base : Result Error PatchSite).toOption = none ∨
      s.descriptors[d.descriptor]? = none) →
        Recorded s.image.base [d] s.descriptors s.descriptors := by
    intro h n
    rw [lastSite_singleton]
    by_cases hn : d.descriptor = n
    · subst hn
      rcases h with h | h
      · rw [if_pos rfl, h]
        simp
      · rw [h]
        rfl
    · rw [if_neg hn]
      simp
  unfold step
  cases hsite : (d.place s.image.base : Result Error PatchSite) with
  | error f => exact hnone (.inl (by rw [hsite]; rfl))
  | ok site =>
    cases hx : s.descriptors[d.descriptor]? with
    | none => exact hnone (.inr hx)
    | some x =>
      have hset := recorded_set hsite hx
      dsimp only
      split
      · exact hset
      · split
        · exact hset
        · exact hset

/-- A tail call that is refused with a report was placed. -/
theorem placed_of_step_reported {d : DirectSite} {cause : Error}
    (h : s.step d = (s', .error (.reported cause))) :
    ∃ site, (d.place s.image.base : Result Error PatchSite) = .ok site := by
  cases hsite : (d.place s.image.base : Result Error PatchSite) with
  | ok site => exact ⟨site, rfl⟩
  | error f =>
    unfold step at h
    rw [hsite] at h
    obtain ⟨_, hf⟩ := Prod.mk.inj h
    obtain rfl := Except.error.inj hf
    have hplus : ∀ (a : Address) (count : Nat), FailsOnly (fun f => f = Failure.crash)
        (a.plus count : Result Error Address) := by
      intro a count
      unfold Address.plus
      exact .ite (failsOnly_ok _) (failsOnly_error.mpr rfl)
    have hplace : FailsOnly (fun f => f = Failure.crash)
        (d.place s.image.base : Result Error PatchSite) :=
      .bind (hplus _ _) fun _ => .bind (hplus _ _) fun _ => .bind (hplus _ _) fun _ =>
        failsOnly_pure _
    cases hplace _ hsite

/-- An installation recorded the tail calls that it reached: all of them, or those up to the one that
was refused. -/
theorem recorded_run {sites : List DirectSite} {r : Result Error Unit}
    (h : s.run sites = (s', r)) :
    ∃ reached, reached <+: sites ∧ Recorded s.image.base reached s.descriptors s'.descriptors ∧
      (r = .ok () → reached = sites) ∧
      (r ≠ .error .crash → ∀ x ∈ reached, ∃ site,
        (x.place s.image.base : Result Error PatchSite) = .ok site) := by
  induction sites generalizing s with
  | nil =>
    cases h
    exact ⟨[], List.nil_prefix, .nil _ _, fun _ => rfl, fun _ x hx => by cases hx⟩
  | cons d rest ih =>
    have hrecorded := recorded_step s d
    rw [run] at h
    split at h
    · rename_i next hn
      rw [hn] at hrecorded
      obtain ⟨site, _, _, _, _, _, hsite, _⟩ := step_eq_ok hn
      have hbase := (step_frame hn).1.base_eq
      obtain ⟨reached, hprefix, hrest, hall, hplaced⟩ := ih h
      rw [hbase] at hrest hplaced
      refine ⟨d :: reached, List.cons_prefix_cons.mpr ⟨rfl, hprefix⟩, hrecorded.trans hrest,
        fun hr => by rw [hall hr], fun hr => List.forall_mem_cons.mpr ⟨⟨site, hsite⟩, hplaced hr⟩⟩
    · rename_i next f hn
      cases h
      rw [hn] at hrecorded
      refine ⟨[d], ⟨rest, rfl⟩, hrecorded, fun hr => ?_, fun hr x hx => ?_⟩
      · cases hr
      obtain rfl := List.mem_singleton.mp hx
      cases f with
      | crash => exact absurd rfl hr
      | reported cause => exact placed_of_step_reported hn

end Installation

/-- What a failed compilation left in the descriptors of its program, by the direct tail calls that
its installation reached and the address of the image that was given up. -/
structure LeavesSites (source : Source) (cause : Error) (base : Address)
    (reached : List DirectSite) (after : List Descriptor) : Prop where
  /-- Every descriptor has its table and its key, and the site of the last tail call through it. -/
  recorded : Recorded base reached source.program.descriptors after
  /-- The tail calls are the first ones of code that was emitted for the image. -/
  emitted : reached ≠ [] → ∃ offsets padding out,
    source.run offsets (some base) padding = .ok out ∧ reached <+: out.direct
  /-- Every one of them is in a slot of the program, has a descriptor and has its place. -/
  placed : ∀ d ∈ reached, (∃ s ∈ source.program.steps, ∃ id, s.operation = .ok (.tailCall id) ∧
      id ≠ 0 ∧ d.descriptor = (id.toInt - 1).toNat) ∧
    d.descriptor < source.program.descriptors.length ∧
    ∃ site, (d.place base : Result Error PatchSite) = .ok site
  /-- Tail calls are reached only in the last stage. -/
  late : reached ≠ [] → (Failure.reported cause).From [.image]

namespace LeavesSites

variable {source : Source} {cause : Error} {base : Address} {reached : List DirectSite}
  {after : List Descriptor}

/-- A failure before the installation leaves the descriptors alone. -/
theorem early (source : Source) (cause : Error) (base : Address) :
    LeavesSites source cause base [] source.program.descriptors where
  recorded := .nil _ _
  emitted := fun h => absurd rfl h
  placed := fun d hd => absurd hd (by simp)
  late := fun h => absurd rfl h

/-- The descriptors of a program without sites are as before exactly when no tail call was
reached. -/
theorem kept_iff (h : LeavesSites source cause base reached after)
    (hfresh : ∀ x ∈ source.program.descriptors, x.site = none) :
    after = source.program.descriptors ↔ reached = [] := by
  rw [h.recorded.eq_iff]
  constructor
  · intro hall
    -- the site of the last tail call would have been there before
    rcases List.eq_nil_or_concat reached with rfl | ⟨front, d, rfl⟩
    · rfl
    · obtain ⟨_, hlt, site, hsite⟩ := h.placed d (by simp)
      have hx := List.getElem?_eq_getElem hlt
      have hlast : lastSite base (front ++ [d]) d.descriptor = some site := by
        rw [lastSite_append, lastSite_singleton, if_pos rfl, hsite]
        rfl
      have hsome := hall _ _ site hx (by rwa [List.concat_eq_append])
      rw [hfresh _ (List.getElem_mem hlt)] at hsome
      cases hsome
  · rintro rfl n x site _ hsite
    cases hsite

end LeavesSites

/-- A direct tail call of a pass stands in a slot of the program and names a descriptor. -/
theorem PassOutput.descriptor_of_run {p : Pass} {out : PassOutput} {program : Program}
    (h : p.run program.steps = .ok out) {d : DirectSite} (hd : d ∈ out.direct) :
    (∃ s ∈ program.steps, ∃ id, s.operation = .ok (.tailCall id) ∧ id ≠ 0 ∧
      d.descriptor = (id.toInt - 1).toNat) ∧ d.descriptor < p.descriptors := by
  obtain ⟨before, s, after, depth, operation, epilogue, fragment, site, hs, hh, hsite, rfl⟩ :=
    direct_of_run h (fun x hx => one_le_slots hx) hd
  obtain ⟨id, rfl, hid, hlt, hdirect⟩ := Pass.lower_direct hh.lowered hsite
  obtain ⟨_, _, rfl, _⟩ := direct_eq_ok hdirect
  exact ⟨⟨s, by simp [hs], id, hh.operation_eq, hid, rfl⟩, hlt⟩

/-- A program that could not be finalized left sites for the tail calls that were reached. -/
theorem finalize_leavesSites (source : Source) {offsets : Array Nat} {padding : Bool}
    {tables : Array Table} {asked : Option Nat} {layout : Layout} {passes : Nat} {image : Image}
    {out : PassOutput} {cause : Error}
    (hr : source.run offsets (some image.base) padding = .ok out)
    (h : (finalize source.program tables asked layout passes image out).outcome =
      .error (.reported cause)) :
    ∃ reached, LeavesSites source cause image.base reached
      (finalize source.program tables asked layout passes image out).descriptors := by
  unfold finalize at h ⊢
  split at h
  · exact ⟨[], .early _ _ _⟩
  · rename_i written exceptions hw
    dsimp only at h ⊢
    split at h
    · rename_i stopped failure hcomplete
      cases h
      have hbase : written.base = image.base := (writeImage_eq_ok hw).1.base_eq
      -- the installation failed on its way, or its image was refused behind it
      obtain ⟨r, hrun, hcrash, hlate⟩ : ∃ r : Result Error Unit, Installation.run
          { descriptors := source.program.descriptors, tables, image := written } out.direct =
            (stopped, r) ∧ r ≠ .error .crash ∧ (Failure.reported cause).From [.image] := by
        rcases Installation.complete_eq_error hcomplete with hrun | ⟨hrun, hcause⟩
        · exact ⟨_, hrun, by simp, Installation.run_failsOnly _ _ _ (congrArg Prod.snd hrun)⟩
        · rw [hcause]
          exact ⟨_, hrun, by simp, trivial⟩
      obtain ⟨reached, hreached, hrecorded, _, hplaced⟩ := Installation.recorded_run hrun
      dsimp only at hrecorded hplaced
      rw [hbase] at hrecorded hplaced
      refine ⟨reached, hrecorded, fun _ => ⟨offsets, padding, out, hr, hreached⟩, ?_,
        fun _ => hlate⟩
      intro x hx
      obtain ⟨hslot, hlt⟩ := PassOutput.descriptor_of_run hr (hreached.subset hx)
      exact ⟨hslot, hlt, hplaced hcrash x hx⟩
    · cases h

/-- A program that is installed in full into an image that cannot be made executable has the sites of
all its tail calls recorded. -/
theorem finalize_locked {program : Program} {tables : Array Table} {asked : Option Nat}
    {layout : Layout} {passes : Nat} {image written : Image} {out : PassOutput}
    {exceptions : ExceptionTable} {done : Installation}
    (hw : writeImage image out program.probeCount = .ok (written, exceptions))
    (hrun : Installation.run { descriptors := program.descriptors, tables, image := written }
      out.direct = (done, .ok ())) (hlock : image.lockable = false) :
    (finalize program tables asked layout passes image out).outcome =
        .error (.reported (.outOfMemory .protectionFailed)) ∧
      Recorded image.base out.direct program.descriptors
        (finalize program tables asked layout passes image out).descriptors := by
  obtain ⟨hwritten, hwritable, _⟩ := writeImage_eq_ok hw
  obtain ⟨hdone, _⟩ := Installation.run_frame hrun
  have hblock := hdone.trans hwritten
  have hrefused : done.image.makeExecutable = report .protectionFailed := by
    unfold Image.makeExecutable
    rw [hblock.executable_eq, hwritable, hblock.lockable_eq, hlock]
    rfl
  obtain ⟨reached, _, hrecorded, hall, _⟩ := Installation.recorded_run hrun
  obtain rfl := hall rfl
  dsimp only at hrecorded
  rw [hwritten.base_eq] at hrecorded
  unfold finalize Installation.complete
  rw [hw]
  dsimp only
  rw [hrun]
  dsimp only
  rw [hrefused]
  exact ⟨rfl, hrecorded⟩

/-- A compilation that failed left sites in the image that it had asked for, if in any. -/
theorem compile_leavesSites {config : Config} {program : Program}
    {resolve : CallSite → Option Address} {tables : Array Table}
    {alloc : Nat → Result MemoryError Image} {cause : Error}
    (h : (compile config program resolve tables alloc).outcome = .error (.reported cause)) :
    ∃ base reached, LeavesSites (sourceOf config program resolve) cause base reached
        (compile config program resolve tables alloc).descriptors ∧
      (reached ≠ [] → ∃ size image, allocate alloc size = .ok image ∧ image.base = base) := by
  have hearly := LeavesSites.early (sourceOf config program resolve) cause 0
  have hnone : ([] : List DirectSite) ≠ [] → ∃ size image, allocate alloc size = .ok image ∧
      image.base = 0 := fun hne => absurd rfl hne
  unfold compile at h ⊢
  dsimp only at h ⊢
  split at h
  · exact ⟨0, [], hearly, hnone⟩
  · split at h
    · exact ⟨0, [], hearly, hnone⟩
    · rename_i size _
      split at h
      · exact ⟨0, [], hearly, hnone⟩
      · rename_i image hi
        unfold emitFinal at h ⊢
        dsimp only at h ⊢
        split at h
        · exact ⟨0, [], hearly, hnone⟩
        · rename_i out hr
          split at h
          · exact ⟨0, [], hearly, hnone⟩
          · split at h
            · rename_i hp
              rw [if_pos hp]
              obtain ⟨reached, hleaves⟩ :=
                finalize_leavesSites (sourceOf config program resolve) hr h
              exact ⟨image.base, reached, hleaves, fun _ => ⟨size, image, hi, rfl⟩⟩
            · cases h

/-- A program that could not be finished left sites in its image, if in any. -/
theorem finish_leavesSites {pending : PendingProgram} {program : Program}
    {resolve : CallSite → Option Address} {tables : Array Table} {asked : Option Nat}
    {cause : Error}
    (h : (pending.finish program resolve tables asked).outcome = .error (.reported cause)) :
    ∃ reached, LeavesSites ⟨pending.config, program, pending.frame, resolve⟩ cause
      pending.image.base reached (pending.finish program resolve tables asked).descriptors := by
  have hearly := LeavesSites.early ⟨pending.config, program, pending.frame, resolve⟩ cause
    pending.image.base
  unfold PendingProgram.finish at h ⊢
  dsimp only at h ⊢
  split at h
  · exact ⟨[], hearly⟩
  · rename_i out hr
    split at h
    · exact ⟨[], hearly⟩
    · split at h
      · rename_i hp
        rw [if_pos hp]
        exact finalize_leavesSites ⟨pending.config, program, pending.frame, resolve⟩ hr h
      · rename_i hp
        rw [if_neg hp]
        exact ⟨[], hearly⟩

/-- A failed compilation changes no table and no key of a descriptor. It records the sites of the
direct tail calls that its installation reached, the refused one included, and all of them if the
image cannot be made executable; so descriptors without sites are kept iff none was reached. -/
theorem descriptors_of_failure (program : Program) (resolve : CallSite → Option Address)
    (tables : Array Table) (cause : Error) :
    (∀ config alloc,
      (compile config program resolve tables alloc).outcome = .error (.reported cause) →
      ∃ base reached, LeavesSites (sourceOf config program resolve) cause base reached
          (compile config program resolve tables alloc).descriptors ∧
        (reached ≠ [] → ∃ size image, allocate alloc size = .ok image ∧ image.base = base) ∧
        ((∀ x ∈ program.descriptors, x.site = none) →
          ((compile config program resolve tables alloc).descriptors = program.descriptors ↔
            reached = []))) ∧
    (∀ (pending : PendingProgram) asked,
      (pending.finish program resolve tables asked).outcome = .error (.reported cause) →
      ∃ reached, LeavesSites ⟨pending.config, program, pending.frame, resolve⟩ cause
          pending.image.base reached (pending.finish program resolve tables asked).descriptors ∧
        ((∀ x ∈ program.descriptors, x.site = none) →
          ((pending.finish program resolve tables asked).descriptors = program.descriptors ↔
            reached = []))) ∧
    ∀ asked layout passes image out written exceptions done,
      writeImage image out program.probeCount = .ok (written, exceptions) →
      Installation.run { descriptors := program.descriptors, tables, image := written } out.direct =
        (done, .ok ()) → image.lockable = false →
      (finalize program tables asked layout passes image out).outcome =
          .error (.reported (.outOfMemory .protectionFailed)) ∧
        Recorded image.base out.direct program.descriptors
          (finalize program tables asked layout passes image out).descriptors := by
  refine ⟨fun config alloc h => ?_, fun pending asked h => ?_,
    fun asked layout passes image out written exceptions done hw hrun hlock =>
      finalize_locked hw hrun hlock⟩
  · obtain ⟨base, reached, hleaves, himage⟩ := compile_leavesSites h
    exact ⟨base, reached, hleaves, himage, hleaves.kept_iff⟩
  · obtain ⟨reached, hleaves⟩ := finish_leavesSites h
    exact ⟨reached, hleaves, hleaves.kept_iff⟩

/-- Three tail calls through one table; the second one has a key beyond the table. -/
def interruptedProgram : Program where
  name := "interrupted"
  insns := [⟨0xF5, 0, 0, 0, 1⟩, ⟨0xF5, 0, 0, 0, 2⟩, ⟨0xF5, 0, 0, 0, 3⟩, ⟨0x95, 0, 0, 0, 0⟩]
  descriptors := [{ table := 0, key := 0 }, { table := 0, key := 9 }, { table := 0, key := 1 }]

/-- The compilation of a program beside a table of two slots. -/
def compileBeside (program : Program) (lockable : Bool := true) : Compilation :=
  compile {} program (fun _ => none) #[{ maxEntries := 2 }] fun size =>
    .ok { Image.blank 0x10000 size with lockable }

/-- The second tail call is refused: the first two descriptors have sites, the third one has none.
Where nothing but the image is refused, all descriptors have sites. -/
theorem descriptors_of_failure_interrupted :
    ((compileBeside interruptedProgram).outcome = .error (.reported (.outOfRange .tailCallKey 9)) ∧
      (compileBeside interruptedProgram).descriptors.map (fun x => x.site.map PatchSite.bypass) =
        [some 0x10020, some 0x1003F, none] ∧
      ∃ base reached, LeavesSites (sourceOf {} interruptedProgram fun _ => none)
        (.outOfRange .tailCallKey 9) base reached (compileBeside interruptedProgram).descriptors ∧
        reached ≠ []) ∧
    (compileBeside callingProgram false).outcome =
      .error (.reported (.outOfMemory .protectionFailed)) ∧
    (compileBeside callingProgram false).descriptors.map (fun x => x.site.map PatchSite.bypass) =
      [some 0x10020, some 0x1003F] ∧
    ∃ base reached, LeavesSites (sourceOf {} callingProgram fun _ => none)
      (.outOfMemory .protectionFailed) base reached
      (compileBeside callingProgram false).descriptors ∧ reached ≠ [] := by
  have hcause : (compileBeside interruptedProgram).cause? = some (.outOfRange .tailCallKey 9) := by
    decide +kernel
  have hlocked : (compileBeside callingProgram false).cause? =
      some (.outOfMemory .protectionFailed) := by
    decide +kernel
  have hfail := Compilation.cause?_eq_some.mp hcause
  have hrefused := Compilation.cause?_eq_some.mp hlocked
  refine ⟨⟨hfail, by decide +kernel, ?_⟩, hrefused, by decide +kernel, ?_⟩
  · obtain ⟨base, reached, hleaves, _, hkept⟩ := (descriptors_of_failure _ _ _ _).1 _ _ hfail
    have hchanged : (compileBeside interruptedProgram).descriptors ≠
      interruptedProgram.descriptors := by decide +kernel
    exact ⟨base, reached, hleaves, fun hnil => hchanged ((hkept (by decide)).mpr hnil)⟩
  · obtain ⟨base, reached, hleaves, _, hkept⟩ := (descriptors_of_failure _ _ _ _).1 _ _ hrefused
    have hchanged : (compileBeside callingProgram false).descriptors ≠
      callingProgram.descriptors := by decide +kernel
    exact ⟨base, reached, hleaves, fun hnil => hchanged ((hkept (by decide)).mpr hnil)⟩

/-- One tail call with a key beyond its table, and an exit. -/
def refusedProgram : Program where
  name := "refused"
  insns := [⟨0xF5, 0, 0, 0, 1⟩, ⟨0x95, 0, 0, 0, 0⟩]
  descriptors := [{ table := 0, key := 2 }]

/-- The compilation fails and leaves a site in the descriptor. -/
theorem descriptors_changed_by_failure :
    (compileBeside refusedProgram).outcome = .error (.reported (.outOfRange .tailCallKey 2)) ∧
    refusedProgram.descriptors.map Descriptor.site = [none] ∧
    (compileBeside refusedProgram).descriptors.map Descriptor.site =
      [some ⟨0x10020, 0x10026, 0x1002B, 11⟩] := by
  have hcause : (compileBeside refusedProgram).cause? = some (.outOfRange .tailCallKey 2) := by
    decide +kernel
  exact ⟨Compilation.cause?_eq_some.mp hcause, rfl, by decide +kernel⟩

end NativeForge
