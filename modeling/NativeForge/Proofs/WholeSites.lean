import NativeForge.Proofs.FailedUpdates

/-!
# Tail-call sites between two patches

Sites are patched field by field, and an update may stop at any field: because a target cannot be
reached, because a field does not hold what is expected, or because the system refuses to change the
protection of a field, before or after it is written. At every moment between two patches each field
of a tracked site is one whole instruction, and the two fields are never both empty: code that runs
into the site either goes around the teardown of the frame or finds a jump behind it. For one site
this rests on the order of its patches alone; for a history it is kept by every action, also by
updates that fail.
-/

namespace NativeForge

open X64 Virtual Target TailCall

namespace TailCall

namespace PatchSite

/-- Every field of the site is one whole instruction, and the fields are not both empty. -/
structure Whole (site : PatchSite) (read : Nat → Option UInt8) : Prop where
  /-- The bypass does nothing or jumps past the site. -/
  bypass : FieldHolds read site.bypass none ∨ FieldHolds read site.bypass (some site.resume)
  /-- The target field does nothing or jumps somewhere. -/
  target : ∃ landing, FieldHolds read site.target landing
  /-- One of the fields jumps. -/
  jumps : ¬(FieldHolds read site.bypass none ∧ FieldHolds read site.target none)

variable {site : PatchSite} {read : Nat → Option UInt8}

/-- A site with a jump in its target field is whole. -/
theorem whole_of_target {landing : Address}
    (hb : FieldHolds read site.bypass none ∨ FieldHolds read site.bypass (some site.resume))
    (ht : FieldHolds read site.target (some landing)) : site.Whole read :=
  ⟨hb, ⟨_, ht⟩, fun hempty => nomatch ht.target_unique hempty.2⟩

/-- A site with a jump in its bypass is whole. -/
theorem whole_of_bypass {landing : Option Address}
    (hb : FieldHolds read site.bypass (some site.resume))
    (ht : FieldHolds read site.target landing) : site.Whole read :=
  ⟨.inr hb, ⟨_, ht⟩, fun hempty => nomatch hb.target_unique hempty.1⟩

/-- Memories that agree on the fields of a site leave it as whole. -/
theorem Whole.congr {read' : Nat → Option UInt8} (h : site.Whole read)
    (hr : ∀ a, site.Covers a → read' a = read a) : site.Whole read' := by
  have hbypass : ∀ a, SiteCovers site.bypass a → read' a = read a := fun a ha => hr a (.inl ha)
  have htarget : ∀ a, SiteCovers site.target a → read' a = read a := fun a ha => hr a (.inr ha)
  obtain ⟨landing, ht⟩ := h.target
  refine ⟨h.bypass.imp (·.congr hbypass) (·.congr hbypass), ⟨landing, ht.congr htarget⟩, ?_⟩
  rintro ⟨hb, ht⟩
  exact h.jumps ⟨hb.congr fun a ha => (hbypass a ha).symm, ht.congr fun a ha => (htarget a ha).symm⟩

/-- A site that shows a slot is whole. -/
theorem Shows.whole {slot : Option Address} (h : site.Shows read slot) : site.Whole read := by
  cases slot with
  | none => exact whole_of_bypass h.1 h.2
  | some entry =>
    obtain ⟨hb, _, _, ht⟩ := h
    exact whole_of_target (.inl hb) ht

end PatchSite

/-- Of several patches the first ones are performed, whatever the system answers: none, or the first
and some of the others. -/
theorem patchAll_take_cons {space : Space} (hs : space.Separate) (ip : Address)
    (old new : Option Address) (rest : List (Address × Patch)) (access : List Access) (n : Nat) :
    (patchAll space (((ip, jumpPatch old new) :: rest).take n) access).1 = space ∨
      ∃ next m, space.Keeps next (SiteCovers ip) ∧ FieldHolds next.byteAt ip new ∧
        (patchAll space (((ip, jumpPatch old new) :: rest).take n) access).1 =
          (patchAll next (rest.take m) access.tail).1 := by
  cases n with
  | zero => exact .inl rfl
  | succ m =>
    obtain ⟨next, r, hp⟩ : ∃ next r,
        space.patch ip (jumpPatch old new) (access.headD .granted) = (next, r) := ⟨_, _, rfl⟩
    rw [List.take_succ_cons, patchAll, hp]
    rcases Space.patch_cases hs hp with ⟨rfl, hok⟩ | ⟨hkeep, hnew, hm⟩
    · cases r with
      | error f => exact .inl rfl
      | ok outcome =>
        obtain rfl := hok outcome rfl
        exact .inl rfl
    · cases r with
      | error f => exact .inr ⟨next, 0, hkeep, hnew, rfl⟩
      | ok outcome =>
        refine .inr ⟨next, m, hkeep, hnew, ?_⟩
        cases outcome with
        | mismatch => exact absurd rfl hm
        | patched => rfl
        | unchanged => rfl

namespace PatchSite

/-- The first patches of a site and of those behind it: the site stays whole, and the others follow
when its patches are done. -/
theorem patches_take {site : PatchSite} (hp : site.Placed) {space : Space} (hs : space.Separate)
    (hw : site.Whole space.byteAt) {old new : Option Address} {group : List (Address × Patch)}
    (hg : (site.patches old new : Result Error (List (Address × Patch))) = .ok group)
    (rest : List (Address × Patch)) (access : List Access) (n : Nat) :
    ∃ next, space.Keeps next site.Covers ∧ site.Whole next.byteAt ∧
      ((patchAll space ((group ++ rest).take n) access).1 = next ∨
        ∃ m later, (patchAll space ((group ++ rest).take n) access).1 =
          (patchAll next (rest.take m) later).1) := by
  obtain ⟨oldLanding, _, hg⟩ := bind_eq_ok.mp hg
  obtain ⟨newLanding, hnl, hg⟩ := bind_eq_ok.mp hg
  have hself : space.Keeps space site.Covers := .refl _ _
  cases new with
  | some entry =>
    obtain rfl := pure_eq_ok.mp hg
    obtain ⟨he, _⟩ | ⟨_, dest, _, rfl, _⟩ := landing_eq_ok hnl
    · cases he
    rw [List.cons_append]
    rcases patchAll_take_cons hs site.target oldLanding (some dest)
      ((if old.isNone then [(site.bypass, jumpPatch (some site.resume) none)] else []) ++ rest)
      access n with heq | ⟨next, m, hk, hf, heq⟩
    · exact ⟨space, hself, hw, .inl heq⟩
    -- the target jumps now, so the bypass may be opened
    have hbypass : ∀ a, SiteCovers site.bypass a → next.byteAt a = space.byteAt a :=
      fun a ha => hk.outside a (hp.not_covers ha)
    have hk := hk.mono (q := site.Covers) fun a ha => .inr ha
    have hnext : site.Whole next.byteAt :=
      whole_of_target (hw.bypass.imp (·.congr hbypass) (·.congr hbypass)) hf
    rw [heq]
    cases old with
    | some _ => exact ⟨next, hk, hnext, .inr ⟨m, _, rfl⟩⟩
    | none =>
      rcases patchAll_take_cons (hk.same.separate hs) site.bypass (some site.resume) none rest
        access.tail m with heq' | ⟨last, m', hk', hf', heq'⟩
      · exact ⟨next, hk, hnext, .inl heq'⟩
      · have htarget : FieldHolds last.byteAt site.target (some dest) :=
          hf.congr fun a ha => hk'.outside a fun hb => hp.not_covers hb ha
        exact ⟨last, hk.trans (hk'.mono fun a ha => .inl ha), whole_of_target (.inl hf') htarget,
          .inr ⟨m', _, heq'⟩⟩
  | none =>
    obtain rfl := pure_eq_ok.mp hg
    obtain ⟨_, rfl⟩ | ⟨_, _, he, _⟩ := landing_eq_ok hnl
    · rw [List.cons_append, List.cons_append, List.nil_append]
      rcases patchAll_take_cons hs site.bypass (if old.isSome then none else some site.resume)
        (some site.resume) ((site.target, jumpPatch oldLanding none) :: rest) access n
        with heq | ⟨next, m, hk, hf, heq⟩
      · exact ⟨space, hself, hw, .inl heq⟩
      -- the bypass jumps now, so the target may go away
      have htarget : ∀ a, SiteCovers site.target a → next.byteAt a = space.byteAt a :=
        fun a ha => hk.outside a fun hb => hp.not_covers hb ha
      have hk := hk.mono (q := site.Covers) fun a ha => .inl ha
      obtain ⟨landing, ht⟩ := hw.target
      have hnext : site.Whole next.byteAt := whole_of_bypass hf (ht.congr htarget)
      rw [heq]
      rcases patchAll_take_cons (hk.same.separate hs) site.target oldLanding none rest
        access.tail m with heq' | ⟨last, m', hk', hf', heq'⟩
      · exact ⟨next, hk, hnext, .inl heq'⟩
      · have hclosed : FieldHolds last.byteAt site.bypass (some site.resume) :=
          hf.congr fun a ha => hk'.outside a (hp.not_covers ha)
        exact ⟨last, hk.trans (hk'.mono fun a ha => .inr ha), whole_of_bypass hclosed hf',
          .inr ⟨m', _, heq'⟩⟩
    · cases he

end PatchSite

/-- The first patches of several sites change only fields of the sites and leave all of them
whole. -/
theorem whole_of_patchAll_take {sites : List Tracked} (hp : ∀ t ∈ sites, t.site.Placed)
    (hap : sites.Pairwise fun a b => a.site.Apart b.site) {space : Space} (hs : space.Separate)
    (hw : ∀ t ∈ sites, t.site.Whole space.byteAt) {old new : Option Address}
    {groups : List (List (Address × Patch))}
    (hg : (sites.mapM fun t => t.site.patches old new : Result Error _) = .ok groups)
    (access : List Access) (n : Nat) :
    space.Keeps (patchAll space (groups.flatten.take n) access).1
        (fun a => ∃ t ∈ sites, t.site.Covers a) ∧
      ∀ t ∈ sites, t.site.Whole (patchAll space (groups.flatten.take n) access).1.byteAt := by
  induction sites generalizing space groups access n with
  | nil =>
    rw [List.mapM_nil] at hg
    obtain rfl := pure_eq_ok.mp hg
    rw [List.flatten_nil, List.take_nil]
    exact ⟨.refl _ _, fun t ht => absurd ht (by simp)⟩
  | cons t rest ih =>
    rw [List.mapM_cons] at hg
    obtain ⟨group, hgroup, hg⟩ := bind_eq_ok.mp hg
    obtain ⟨others, hothers, hg⟩ := bind_eq_ok.mp hg
    obtain rfl := pure_eq_ok.mp hg
    have hpt := hp t (by simp)
    have hpr : ∀ u ∈ rest, u.site.Placed := fun u hu => hp u (by simp [hu])
    obtain ⟨hapt, hapr⟩ := List.pairwise_cons.mp hap
    rw [List.flatten_cons]
    obtain ⟨next, hk, hnext, hlast⟩ :=
      PatchSite.patches_take hpt hs (hw t (by simp)) hgroup others.flatten access n
    have hk' := hk.mono (q := fun a => ∃ u ∈ t :: rest, u.site.Covers a) fun a ha => ⟨t, by simp, ha⟩
    -- the others share no byte with this site
    have hothers' : ∀ u ∈ rest, u.site.Whole next.byteAt := fun u hu =>
      (hw u (by simp [hu])).congr fun a ha => hk.outside a fun hc =>
        (hapt u hu).not_covers hpt (hpr u hu) hc ha
    rcases hlast with heq | ⟨m, later, heq⟩
    · rw [heq]
      exact ⟨hk', List.forall_mem_cons.mpr ⟨hnext, hothers'⟩⟩
    · obtain ⟨hkeep, hwhole⟩ := ih hpr hapr (hk.same.separate hs) hothers' hothers later m
      rw [heq]
      refine ⟨hk'.trans (hkeep.mono ?_), List.forall_mem_cons.mpr ⟨?_, hwhole⟩⟩
      · rintro a ⟨u, hu, ha⟩
        exact ⟨u, by simp [hu], ha⟩
      · refine hnext.congr fun a ha => hkeep.outside a ?_
        rintro ⟨u, hu, hc⟩
        exact (hapt u hu).not_covers hpt (hpr u hu) ha hc

end TailCall

/-- Being whole is a property of the fields. -/
theorem ofFields_whole : SiteProperty.OfFields fun site read _ => site.Whole read :=
  ⟨.congr, fun h => h.whole⟩

/-- A moment while direct tail calls are installed one after the other: the image and the tables
before a call, while the call is being installed, or later. While a call is being installed its
fields may hold anything; it is not tracked yet. -/
inductive Installation.Moment : Installation → List DirectSite → Image → Array Table → Prop
  | before (s : Installation) (sites : List DirectSite) : Moment s sites s.image s.tables
  | within {s : Installation} {d : DirectSite} {rest : List DirectSite} {image : Image}
      (hblock : image.SameBlock s.image)
      (houtside : ∀ i, ¬d.Covers i → image.bytes[i]? = s.image.bytes[i]?) :
      Moment s (d :: rest) image s.tables
  | later {s next : Installation} {d : DirectSite} {rest : List DirectSite} {image : Image}
      {tables : Array Table} (h : s.step d = (next, .ok ())) (hm : Moment next rest image tables) :
      Moment s (d :: rest) image tables

namespace World

/-- The action installs direct tail calls: the output of the final pass was written into the image
of a program that is compiled or finished. -/
inductive Installs (w : World) : Action → Installation → List DirectSite → Prop
  | compile {config : Config} {program : Program} {resolve : CallSite → Option Address}
      {alloc : Nat → Result MemoryError Image} {settled : Settled} {size : Nat}
      {image written : Image} {out : PassOutput} {exceptions : ExceptionTable}
      (hlayout : (sourceOf config program resolve).layout = .ok settled)
      (hsize : imageSize settled.layout.size program.probeCount = (.ok size : Result Error Nat))
      (hallocate : allocate alloc size = .ok image)
      (hrun : (sourceOf config program resolve).run settled.layout.offsets (some image.base)
        ((sourceOf config program resolve).padded settled.passes) = .ok out)
      (hcheck : checkFinal settled.layout out = .ok ()) (hpending : out.pending = 0)
      (hwritten : writeImage image out program.probeCount = .ok (written, exceptions)) :
      Installs w (.compile config program resolve alloc)
        { descriptors := program.descriptors, tables := w.tables, image := written } out.direct
  | finish {number : Nat} {program : Program} {resolve : CallSite → Option Address}
      {p : PendingProgram} {written : Image} {out : PassOutput} {exceptions : ExceptionTable}
      (hp : w.waiting[number]? = some p)
      (hrun : (⟨p.config, program, p.frame, resolve⟩ : Source).run p.layout.offsets
        (some p.image.base) p.padding = .ok out)
      (hcheck : checkFinal p.layout out = .ok ()) (hpending : out.pending = 0)
      (hwritten : writeImage p.image out program.probeCount = .ok (written, exceptions)) :
      Installs w (.finish number program resolve)
        { descriptors := program.descriptors, tables := w.tables, image := written } out.direct

/-- A moment of an action between two patches: memory and tables before the action, after some of
the patches of an update, or while direct tail calls are installed in memory that is not in use. -/
inductive Moment (w : World) : Action → Space → Array Table → Prop
  | before (action : Action) : Moment w action w.space w.tables
  | patching {number : Nat} {t : Table} {key : UInt32} {entry : Option Address}
      {access : List Access} {patches : List (Address × Patch)} (ht : w.tables[number]? = some t)
      (hp : (t.patches key entry : Result Error _) = .ok patches) (n : Nat) :
      Moment w (.update number key entry access) (patchAll w.space (patches.take n) access).1
        w.tables
  | installing {action : Action} {start : Installation} {sites : List DirectSite} {image : Image}
      {tables : Array Table} (h : w.Installs action start sites)
      (hfree : ∀ n mapped, w.space.get? n = some mapped → mapped.Apart start.image)
      (hm : start.Moment sites image tables) :
      Moment w action (w.space.push (some image)) tables

/-- The world after an action, if the action is possible. An update that fails leaves the patches
that it has performed. -/
def attempt (w : World) (action : Action) : Option World :=
  match action with
  | .update number key entry access =>
    match w.tables[number]? with
    | none => none
    | some table =>
      match table.update w.space key entry access with
      | (space, .error _) => some { w with space }
      | (space, .ok table) => some { w with space, tables := w.tables.setIfInBounds number table }
  | action => w.step action

/-- Only updates are carried on when they fail. -/
theorem attempt_eq_step {w : World} {action : Action}
    (h : ∀ number key entry access, action ≠ .update number key entry access) :
    w.attempt action = w.step action := by
  cases action with
  | update number key entry access => exact absurd rfl (h number key entry access)
  | _ => rfl

/-- The world after actions in order, with updates that may fail. -/
def attempts (w : World) : List Action → Option World
  | [] => some w
  | action :: rest => (w.attempt action).bind fun w => w.attempts rest

end World

/-- An update performs all its patches or stops on the way, and then keeps the table. -/
theorem TailCall.Table.update_space {t : Table} {space space' : Space} {key : UInt32}
    {entry : Option Address} {access : List Access} {r : Result Error Table}
    (h : t.update space key entry access = (space', r)) :
    (space' = space ∨ ∃ patches, (t.patches key entry : Result Error _) = .ok patches ∧
      space' = (patchAll space patches access).1) ∧ ∀ t', r = .ok t' → t' = t.setSlot key entry := by
  unfold update at h
  split at h
  · cases h
    exact ⟨.inl rfl, nofun⟩
  · split at h
    · cases h
      exact ⟨.inl rfl, nofun⟩
    · rename_i patches hp
      split at h
      · rename_i last f hall
        cases h
        exact ⟨.inr ⟨patches, hp, by rw [hall]⟩, nofun⟩
      · rename_i last hall
        cases h
        refine ⟨.inr ⟨patches, hp, by rw [hall]⟩, fun t' ht => ?_⟩
        cases ht
        rfl

namespace Installation

/-- The call lies in the image, before the calls that are still to be installed, and is whole. -/
structure HasCall (s : Installation) (rest : List DirectSite) (c : Call) : Prop where
  /-- The call has its place in the code. -/
  place : ∃ d : DirectSite, (d.place s.image.base : Result Error PatchSite) = .ok c.site ∧
    d.Fits s.image.size ∧ ∀ later ∈ rest, d.targetOffset + siteSize ≤ later.bypassOffset
  /-- The call is whole. -/
  whole : c.site.Whole s.image.byteAt

/-- An installation that started from given tables: the calls recorded so far are whole, and those
still to come show an empty slot. -/
structure Sound (tables : Array Table) (s : Installation) (rest : List DirectSite) : Prop where
  /-- The tables have the calls recorded so far. -/
  recorded : ∃ calls, Extended tables s.tables calls ∧ ∀ c ∈ calls, s.HasCall rest c
  /-- The other calls have their places in the image. -/
  fits : ∀ d ∈ rest, d.Fits s.image.size
  /-- The other calls stand in order. -/
  sorted : rest.Pairwise fun a b => a.targetOffset + siteSize ≤ b.bypassOffset
  /-- The other calls show an empty slot. -/
  fresh : ∀ d ∈ rest, ∀ site, (d.place s.image.base : Result Error PatchSite) = .ok site →
    site.Shows s.image.byteAt none

/-- The fields of a call share no byte with the fields of a later one. -/
theorem not_covers_of_le {d later : DirectSite} {size : Nat} (hd : d.Fits size)
    (hlater : later.Fits size) (hle : d.targetOffset + siteSize ≤ later.bypassOffset) {i : Nat}
    (hi : d.Covers i) : ¬later.Covers i := by
  have h1 := hd.fields
  have h2 := hlater.fields
  unfold DirectSite.Covers at hi ⊢
  omega

/-- A recorded call is not touched while a later one is installed. -/
theorem HasCall.congr {s : Installation} {d : DirectSite} {rest : List DirectSite} {c : Call}
    (h : s.HasCall (d :: rest) c) (hfits : ∀ x ∈ d :: rest, x.Fits s.image.size) {image : Image}
    (hbase : image.base = s.image.base)
    (houtside : ∀ i, ¬d.Covers i → image.bytes[i]? = s.image.bytes[i]?) :
    c.site.Whole image.byteAt := by
  obtain ⟨own, hplace, hown, horder⟩ := h.place
  refine h.whole.congr fun a ha => DirectSite.byteAt_eq_of_place hplace hbase (fun i hi => ?_) ha
  exact houtside i (not_covers_of_le hown (hfits d (by simp)) (horder d (by simp)) hi)

/-- Installing one call keeps an installation sound. -/
theorem Sound.step {tables : Array Table} {s next : Installation} {d : DirectSite}
    {rest : List DirectSite} (h : s.Sound tables (d :: rest)) (hs : s.step d = (next, .ok ())) :
    next.Sound tables rest := by
  obtain ⟨calls, hext, hcalls⟩ := h.recorded
  obtain ⟨call, _, hplace, _, _, hlt, hext', hshow⟩ := step_call hs
  obtain ⟨hblock, hframe⟩ := step_frame hs
  obtain ⟨hbehind, hsorted⟩ := List.pairwise_cons.mp h.sorted
  have hfits := h.fits d (by simp)
  refine ⟨⟨calls ++ [call], hext.trans hext', fun c hc => ?_⟩, ?_, hsorted, ?_⟩
  · rcases List.mem_append.mp hc with hc | hc
    · obtain ⟨own, hown, hin, horder⟩ := (hcalls c hc).place
      refine ⟨⟨own, by rw [hblock.base_eq]; exact hown, by rw [hblock.size_eq]; exact hin,
        fun x hx => horder x (List.mem_cons_of_mem _ hx)⟩, ?_⟩
      exact (hcalls c hc).congr h.fits hblock.base_eq hframe
    · rw [List.mem_singleton.mp hc]
      refine ⟨⟨d, by rw [hblock.base_eq]; exact hplace, by rw [hblock.size_eq]; exact hfits,
        hbehind⟩, ?_⟩
      exact (hshow (hfits.placed hplace) (h.fresh d (by simp) _ hplace) _
        (Array.getElem?_eq_getElem hlt)).whole
  · intro x hx
    rw [hblock.size_eq]
    exact h.fits x (List.mem_cons_of_mem _ hx)
  · intro x hx site hsite
    rw [hblock.base_eq] at hsite
    refine (h.fresh x (List.mem_cons_of_mem _ hx) site hsite).of_fields hsite hblock.base_eq
      fun i hi => hframe i fun hd => ?_
    exact not_covers_of_le hfits (h.fits x (List.mem_cons_of_mem _ hx)) (hbehind x hx) hd hi

/-- At every moment of a sound installation the calls recorded so far lie in the image and are
whole. -/
theorem Moment.whole {tables tables' : Array Table} {s : Installation} {sites : List DirectSite}
    {image : Image} (hm : s.Moment sites image tables') (h : s.Sound tables sites) :
    image.SameBlock s.image ∧ ∃ calls, Extended tables tables' calls ∧ ∀ c ∈ calls,
      c.site.Whole image.byteAt ∧ ∃ d : DirectSite, d.Fits s.image.size ∧
        (d.place s.image.base : Result Error PatchSite) = .ok c.site := by
  induction hm with
  | before s sites =>
    obtain ⟨calls, hext, hcalls⟩ := h.recorded
    refine ⟨.refl _, calls, hext, fun c hc => ⟨(hcalls c hc).whole, ?_⟩⟩
    obtain ⟨own, hplace, hin, _⟩ := (hcalls c hc).place
    exact ⟨own, hin, hplace⟩
  | within hblock houtside =>
    obtain ⟨calls, hext, hcalls⟩ := h.recorded
    refine ⟨hblock, calls, hext, fun c hc =>
      ⟨(hcalls c hc).congr h.fits hblock.base_eq houtside, ?_⟩⟩
    obtain ⟨own, hplace, hin, _⟩ := (hcalls c hc).place
    exact ⟨own, hin, hplace⟩
  | later hs _ ih =>
    obtain ⟨hblock, _⟩ := step_frame hs
    obtain ⟨hsame, calls, hext, hcalls⟩ := ih (h.step hs)
    refine ⟨hsame.trans hblock, calls, hext, fun c hc => ?_⟩
    obtain ⟨hwhole, d, hin, hplace⟩ := hcalls c hc
    rw [hblock.size_eq] at hin
    rw [hblock.base_eq] at hplace
    exact ⟨hwhole, d, hin, hplace⟩

end Installation

/-- An action starts its installation soundly. -/
theorem World.Installs.sound {w : World} {action : Action} {start : Installation}
    {sites : List DirectSite} (h : w.Installs action start sites) :
    start.Sound w.tables sites := by
  have hstart : ∀ {p : Pass} {program : Program} {out : PassOutput} {image written : Image}
      {exceptions : ExceptionTable}, p.run program.steps = .ok out →
      writeImage image out program.probeCount = .ok (written, exceptions) →
      Installation.Sound w.tables
        { descriptors := program.descriptors, tables := w.tables, image := written } out.direct := by
    intro p program out image written exceptions hrun hwritten
    exact ⟨⟨[], .refl _, by simp⟩, fun d hd => (direct_of_writeImage hrun hwritten hd).1,
      PassOutput.direct_sorted hrun, fun d hd => (direct_of_writeImage hrun hwritten hd).2⟩
  cases h with
  | compile _ _ _ hrun _ _ hwritten => exact hstart hrun hwritten
  | finish _ hrun _ _ hwritten => exact hstart hrun hwritten

namespace World.Tracks

variable {w : World} {ledger : List Entry}

/-- After some patches of an update the ledger is kept and every call is whole. -/
theorem whole_of_patches (h : w.Tracks ledger)
    (hw : w.Every ledger fun site read _ => site.Whole read) {n : Nat} {t : Table} {key : UInt32}
    {entry : Option Address} {patches : List (Address × Patch)} (ht : w.tables[n]? = some t)
    (hp : (t.patches key entry : Result Error _) = .ok patches) (access : List Access)
    (count : Nat) :
    w.space.Keeps (patchAll w.space (patches.take count) access).1
        (fun a => ∃ s ∈ t.sitesOn key, s.site.Covers a) ∧
      ∀ x ∈ ledger, ∀ c ∈ x.calls,
        c.site.Whole (patchAll w.space (patches.take count) access).1.byteAt := by
  obtain ⟨groups, hgroups, hflat⟩ := bind_eq_ok.mp hp
  obtain rfl := pure_eq_ok.mp hflat
  have hsites : ∀ s ∈ t.sitesOn key, s.site.Whole w.space.byteAt := by
    intro s hs
    obtain ⟨x, hx, c, hc, rfl, rfl⟩ := h.exists_call ht (Table.mem_sitesOn.mp hs).1
    exact hw x hx c hc t ht
  obtain ⟨hkeep, hwhole⟩ := whole_of_patchAll_take
    (fun s hs => h.placed ht s (Table.mem_sitesOn.mp hs).1) ((h.apart ht).filter _) h.separate
    hsites hgroups access count
  refine ⟨hkeep, fun x hx c hc => ?_⟩
  by_cases hmoved : c.table = n ∧ c.key = key
  · obtain ⟨rfl, hkey⟩ := hmoved
    exact hwhole _ (Table.mem_sitesOn.mpr ⟨h.mem_tracked hx hc ht, hkey⟩)
  · have hother := Classical.not_and_iff_not_or_not.mp hmoved
    refine (hw x hx c hc _ (Array.getElem?_eq_getElem (h.known x hx c hc))).congr fun a ha => ?_
    exact h.byteAt_eq_of_sitesOn ht hkeep hx hc hother ha

/-- While an installation goes on, the calls of the live programs and those recorded so far are
whole. -/
theorem whole_of_installing (h : w.Tracks ledger)
    (hw : w.Every ledger fun site read _ => site.Whole read) {start : Installation}
    {sites : List DirectSite} {image : Image} {tables : Array Table}
    (hstart : start.Sound w.tables sites)
    (hfree : ∀ n mapped, w.space.get? n = some mapped → mapped.Apart start.image)
    (hm : start.Moment sites image tables) {n : Nat} {t : Table} (ht : tables[n]? = some t) :
    ∀ s ∈ t.tracked, s.site.Whole (w.space.push (some image)).byteAt := by
  obtain ⟨hblock, calls, hext, hcalls⟩ := hm.whole hstart
  have hseparate : (w.space.push (some image)).Separate := h.separate.push fun m mapped hmapped =>
    (hfree m mapped hmapped).congr (.refl _) hblock
  have hnew : (w.space.push (some image)).get? w.space.images.size = some image := by
    rw [Space.get?_push, if_pos rfl]
  obtain ⟨t₀, ht₀, _, _, htracked⟩ := h.exists_table hext ht
  intro s hs
  rw [htracked, trackedOn_append, List.mem_append] at hs
  rcases hs with hs | hs
  · rw [← h.tracked_eq n t₀ ht₀] at hs
    obtain ⟨x, hx, c, hc, rfl, rfl⟩ := h.exists_call ht₀ hs
    exact (hw x hx c hc t₀ ht₀).congr fun a ha => (h.stands x hx).byteAt_eq h.separate hseparate
      (h.get?_push_of_mem hx image).2 hc ha
  · obtain ⟨c, hc, _, rfl⟩ := mem_trackedOn.mp hs
    obtain ⟨hwhole, d, hfits, hplace⟩ := hcalls c hc
    refine hwhole.congr fun a ha => ?_
    obtain ⟨hb, ht, _, _⟩ := DirectSite.place_eq_ok hplace
    have hfields := hfits.fields
    have hinside := hfits.inside
    have hbase := congrArg UInt64.toNat hblock.base_eq
    have hsize := hblock.size_eq
    have hcovers : c.site.Covers a := ha
    unfold PatchSite.Covers SiteCovers at hcovers
    exact Space.byteAt_eq_of_get? hseparate hnew (by omega) (by omega)

/-- After an update, also one that failed, the ledger is kept and every call is whole. -/
theorem whole_of_update (h : w.Tracks ledger)
    (hw : w.Every ledger fun site read _ => site.Whole read) {n : Nat} {t t' : Table} {key : UInt32}
    {entry : Option Address} {access : List Access} {space' : Space} {r : Result Error Table}
    (ht : w.tables[n]? = some t) (hu : t.update w.space key entry access = (space', r))
    (htracked : t'.tracked = t.tracked) (htokens : t'.nextToken = t.nextToken) :
    Tracks { w with space := space', tables := w.tables.setIfInBounds n t' } ledger ∧
      Every { w with space := space', tables := w.tables.setIfInBounds n t' } ledger
        fun site read _ => site.Whole read := by
  obtain ⟨hspace, _⟩ := Table.update_space hu
  obtain ⟨hkeep, hwhole⟩ :
      w.space.Keeps space' (fun a => ∃ s ∈ t.sitesOn key, s.site.Covers a) ∧
        ∀ x ∈ ledger, ∀ c ∈ x.calls, c.site.Whole space'.byteAt := by
    rcases hspace with rfl | ⟨patches, hp, rfl⟩
    · exact ⟨.refl _ _, fun x hx c hc =>
        hw x hx c hc _ (Array.getElem?_eq_getElem (h.known x hx c hc))⟩
    · have hall := h.whole_of_patches hw ht hp access patches.length
      rw [List.take_length] at hall
      exact hall
  exact ⟨h.patched ht hkeep htracked htokens, fun x hx c hc _ _ => hwhole x hx c hc⟩

/-- Every action keeps a ledger with whole calls, also an update that fails. -/
theorem attempt (h : w.Tracks ledger) (hw : w.Every ledger fun site read _ => site.Whole read)
    {action : Action} {w' : World} (ha : w.attempt action = some w') :
    ∃ ledger', w'.Tracks ledger' ∧ w'.Every ledger' fun site read _ => site.Whole read := by
  by_cases hupdate : ∃ number key entry access, action = .update number key entry access
  · obtain ⟨number, key, entry, access, rfl⟩ := hupdate
    rw [World.attempt] at ha
    split at ha
    · cases ha
    · rename_i t ht
      split at ha
      · rename_i space' f hu
        cases ha
        have hkept := h.whole_of_update hw ht hu (rfl : t.tracked = t.tracked) rfl
        rw [setIfInBounds_of_getElem? ht] at hkept
        exact ⟨ledger, hkept⟩
      · rename_i space' t' hu
        cases ha
        obtain rfl := (Table.update_space hu).2 t' rfl
        exact ⟨ledger, h.whole_of_update hw ht hu rfl rfl⟩
  · have hother : ∀ number key entry access, action ≠ .update number key entry access :=
      fun number key entry access heq => hupdate ⟨number, key, entry, access, heq⟩
    rw [World.attempt_eq_step hother] at ha
    exact h.step hw ofFields_whole ha hother

/-- Every history keeps a ledger with whole calls. -/
theorem attempts {actions : List Action} {w w' : World} {ledger : List Entry} (h : w.Tracks ledger)
    (hw : w.Every ledger fun site read _ => site.Whole read)
    (ha : w.attempts actions = some w') :
    ∃ ledger', w'.Tracks ledger' ∧ w'.Every ledger' fun site read _ => site.Whole read := by
  induction actions generalizing w ledger with
  | nil =>
    cases ha
    exact ⟨ledger, h, hw⟩
  | cons action rest ih =>
    obtain ⟨next, hn, ha⟩ := Option.bind_eq_some_iff.mp ha
    obtain ⟨ledger', h', hw'⟩ := h.attempt hw hn
    exact ih h' hw' ha

end World.Tracks

/-- No tail-call site is ever half torn down. After any history of compilations, drops and updates,
which the system may stop at any patch, and at any moment between two patches of the next action,
every field of a tracked site is one whole instruction, and one of the two fields jumps. -/
theorem whole_at_every_moment {actions : List Action} {w : World}
    (h : World.attempts {} actions = some w) {action : Action} {space : Space}
    {tables : Array Table} (hm : w.Moment action space tables) :
    ∀ (n : Nat) (t : Table), tables[n]? = some t → ∀ s ∈ t.tracked, s.site.Whole space.byteAt := by
  have hempty : World.Every {} [] fun site read _ => site.Whole read := fun x hx => nomatch hx
  obtain ⟨ledger, htracks, hwhole⟩ := World.Tracks.empty.attempts hempty h
  intro n t ht s hs
  cases hm with
  | before =>
    obtain ⟨x, hx, c, hc, rfl, rfl⟩ := htracks.exists_call ht hs
    exact hwhole x hx c hc t ht
  | patching ht' hp count =>
    obtain ⟨x, hx, c, hc, _, rfl⟩ := htracks.exists_call ht hs
    exact (htracks.whole_of_patches hwhole ht' hp _ count).2 x hx c hc
  | installing hstart hfree hm =>
    exact htracks.whole_of_installing hwhole hstart.sound hfree hm ht s hs

/-- Two programs call through one slot, and an update of the slot fails at the second of them. -/
def failingHistory : List Action := sharingHistory ++ [.update 0 0 (some 0x18000)]

/-- Two programs call through one slot. Clearing the slot is stopped between the two patches of the
first program; then the slot is set to another entry. -/
def stoppedHistory : List Action :=
  sharingHistory ++ [.update 0 0 (some 0x80050000), .update 0 0 none [.granted, .refused],
    .update 0 0 (some 0x80060000)]

/-- The tracked sites of the first table, the slot they go through, and the first bytes of the fields
of the first program. -/
def World.firstSite (w : World) : Option (Nat × Option Address × Option UInt8 × Option UInt8) :=
  w.tables[0]?.map fun t =>
    (t.tracked.length, t.slots 0, w.space.byteAt 0x80010020, w.space.byteAt 0x80010026)

/-- Between the two patches of the first program both of its fields jump. After the update has
failed its bypass is open and its target field jumps, although the slot is empty. After the stopped
history both of its fields jump, although the slot is set. -/
theorem whole_failingHistory :
    (∃ w t patches, World.attempts {} sharingHistory = some w ∧ w.tables[0]? = some t ∧
      (t.patches 0 (some 0x18000) : Result Error _) = .ok patches ∧ t.tracked.length = 2 ∧
      (patchAll w.space (patches.take 1)).1.byteAt 0x80010020 = some 0xE9 ∧
      (patchAll w.space (patches.take 1)).1.byteAt 0x80010026 = some 0xE9 ∧
      ∀ s ∈ t.tracked, s.site.Whole (patchAll w.space (patches.take 1)).1.byteAt) ∧
    (∃ w, World.attempts {} failingHistory = some w ∧
      w.firstSite = some (2, none, some 0x0F, some 0xE9) ∧
      ∀ t, w.tables[0]? = some t → ∀ s ∈ t.tracked, s.site.Whole w.space.byteAt) ∧
    ∃ w, World.attempts {} stoppedHistory = some w ∧
      w.firstSite = some (2, some 0x80060000, some 0xE9, some 0xE9) ∧
      ∀ t, w.tables[0]? = some t → ∀ s ∈ t.tracked, s.site.Whole w.space.byteAt := by
  have hbetween : ((World.attempts {} sharingHistory).bind fun w => w.tables[0]?.bind fun t =>
      (t.patches 0 (some 0x18000) : Result Error _).toOption.map fun patches =>
        (t.tracked.length, (patchAll w.space (patches.take 1)).1.byteAt 0x80010020,
          (patchAll w.space (patches.take 1)).1.byteAt 0x80010026)) =
      some (2, some 0xE9, some 0xE9) := by
    decide +kernel
  have hfailed : (World.attempts {} failingHistory).map World.firstSite =
      some (some (2, none, some 0x0F, some 0xE9)) := by
    decide +kernel
  have hstopped : (World.attempts {} stoppedHistory).map World.firstSite =
      some (some (2, some 0x80060000, some 0xE9, some 0xE9)) := by
    decide +kernel
  refine ⟨?_, ?_, ?_⟩
  · obtain ⟨w, hw, hbetween⟩ := Option.bind_eq_some_iff.mp hbetween
    obtain ⟨t, ht, hbetween⟩ := Option.bind_eq_some_iff.mp hbetween
    obtain ⟨patches, hp, hbetween⟩ := Option.map_eq_some_iff.mp hbetween
    obtain ⟨hlength, hbetween⟩ := Prod.mk.inj hbetween
    obtain ⟨hbypass, htarget⟩ := Prod.mk.inj hbetween
    have hp := toOption_eq_some.mp hp
    exact ⟨w, t, patches, hw, ht, hp, hlength, hbypass, htarget,
      whole_at_every_moment hw (.patching ht hp 1) 0 t ht⟩
  · obtain ⟨w, hw, hsite⟩ := Option.map_eq_some_iff.mp hfailed
    exact ⟨w, hw, hsite, fun t ht =>
      whole_at_every_moment hw (.before (.update 0 0 none)) 0 t ht⟩
  · obtain ⟨w, hw, hsite⟩ := Option.map_eq_some_iff.mp hstopped
    exact ⟨w, hw, hsite, fun t ht =>
      whole_at_every_moment hw (.before (.update 0 0 none)) 0 t ht⟩

end NativeForge
