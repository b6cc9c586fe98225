import NativeForge.Proofs.Emission
import NativeForge.Proofs.Patching

/-!
# Installation of direct tail calls

Installing a direct tail call records it in its table and points its two fields at the table's
slot. No byte outside the two fields changes, so the code of every other instruction is still what
the final pass emitted.
-/

namespace NativeForge

open X64 Virtual Target TailCall

namespace TailCall

/-- The offset lies in one of the two fields of the tail call. -/
def DirectSite.Covers (d : DirectSite) (i : Nat) : Prop :=
  (d.bypassOffset ≤ i ∧ i < d.bypassOffset + siteSize) ∨
    (d.targetOffset ≤ i ∧ i < d.targetOffset + siteSize)

/-- Where the fields of a tail call are in an image. -/
theorem DirectSite.place_eq_ok {ε : Type} {d : DirectSite} {base : Address} {site : PatchSite}
    (h : (d.place base : Result ε PatchSite) = .ok site) :
    site.bypass.toNat = base.toNat + d.bypassOffset ∧
      site.target.toNat = base.toNat + d.targetOffset ∧
      site.resume.toNat = base.toNat + d.targetOffset + siteSize ∧ site.skip = tailCallSkip := by
  unfold DirectSite.place at h
  obtain ⟨target, ht, h⟩ := bind_eq_ok.mp h
  obtain ⟨bypass, hb, h⟩ := bind_eq_ok.mp h
  obtain ⟨resume, hr, h⟩ := bind_eq_ok.mp h
  obtain rfl := pure_eq_ok.mp h
  have ht := plus_eq_ok.mp ht
  have hb := plus_eq_ok.mp hb
  have hr := plus_eq_ok.mp hr
  exact ⟨hb, ht, by dsimp only; omega, rfl⟩

/-- The two fields of a direct tail call do not overlap and lie in its code. -/
theorem direct_fields {frame : Frame} {depth : UInt32} {descriptor : Nat} {code : List Instr}
    {site : DirectSite} (h : direct frame depth descriptor = .ok (code, site)) :
    site.bypassOffset + siteSize ≤ site.targetOffset ∧
      site.targetOffset + siteSize = codeSize code := by
  obtain ⟨_, rfl, rfl, _⟩ := direct_eq_ok h
  have hjmp : ∀ rel, (Instr.jmp (.dword rel)).size = siteSize := fun rel => by
    simp [Instr.size, Instr.encode, Bytes.ofInt32, Bytes.ofUInt32, siteSize]
  have hnop : (Instr.nop 4).size = siteSize := rfl
  simp only [codeSize_append, codeSize_cons, codeSize_nil, codeSize_counting, hjmp, hnop]
  unfold siteSize
  omega

namespace Table

/-- A key that passes the check is one of the table's. -/
theorem checkKey_eq_ok {t : Table} {key : UInt32} (h : t.checkKey key = .ok ()) :
    key < t.maxEntries := by
  unfold checkKey at h
  split at h
  · assumption
  · exact absurd h (outOfRange_ne_ok _ _ _)

/-- A patch of a fresh site rewrites the site. -/
theorem patchFresh_eq_ok {image image' : Image} {ip : Address} {patch : Patch}
    (hip : image.base.toNat ≤ ip.toNat) (h : patchFresh image ip patch = .ok image') :
    ∃ old new, siteBytes ip patch.kind patch.old = .ok old ∧
      siteBytes ip patch.kind patch.new = .ok new ∧
      Image.Rewrites image image' (ip.toNat - image.base.toNat) old new := by
  unfold patchFresh at h
  obtain ⟨⟨outcome, next⟩, hp, h⟩ := bind_eq_ok.mp h
  dsimp only at h
  split at h
  · exact absurd h (defect_ne_ok _ _)
  · rename_i hm
    obtain rfl := pure_eq_ok.mp h
    obtain ⟨ip', old, new, hip', hold, hnew, hr⟩ := Image.patchFresh_eq_ok hp hm
    obtain rfl : ip' = ip := UInt64.toNat_inj.mp (by omega)
    exact ⟨old, new, hold, hnew, hr⟩

/-- What an installation records, and how it patches the fields of the site. -/
theorem install_eq_ok {t t' : Table} {key : UInt32} {site : PatchSite} {image image' : Image}
    {token : Nat} (h : t.install key site image = .ok (t', image', token)) :
    key < t.maxEntries ∧ token = t.nextToken ∧
      t' = { t with
        tracked := t.tracked ++ [⟨t.nextToken, key, site⟩], nextToken := t.nextToken + 1 } ∧
      ((t.slots key = none ∧ image' = image) ∨
        ∃ entry landing middle, t.slots key = some entry ∧
          landing.toNat = entry.toNat + site.skip ∧
          patchFresh image site.target (jumpPatch none (some landing)) = .ok middle ∧
          patchFresh middle site.bypass (jumpPatch (some site.resume) none) = .ok image') := by
  unfold install at h
  obtain ⟨_, hk, h⟩ := bind_eq_ok.mp h
  refine ⟨checkKey_eq_ok hk, ?_⟩
  cases hs : t.slots key with
  | none =>
    rw [hs] at h
    obtain ⟨_, hi, h⟩ := bind_eq_ok.mp h
    obtain rfl := pure_eq_ok.mp hi
    cases pure_eq_ok.mp h
    exact ⟨rfl, rfl, .inl ⟨rfl, rfl⟩⟩
  | some entry =>
    rw [hs] at h
    obtain ⟨landing, hl, h⟩ := bind_eq_ok.mp h
    obtain ⟨middle, hm, h⟩ := bind_eq_ok.mp h
    obtain ⟨last, hi, h⟩ := bind_eq_ok.mp h
    cases pure_eq_ok.mp h
    exact ⟨rfl, rfl, .inr ⟨entry, landing, middle, rfl, plus_eq_ok.mp hl, hm, hi⟩⟩

end Table

end TailCall

/-- Only a tail call through a descriptor has patchable fields. -/
theorem Pass.lower_direct {p : Pass} {depth : UInt32} {index : Nat} {epilogue : Option Nat}
    {operation : Operation} {fragment : Fragment} {site : DirectSite}
    (h : p.lower depth index epilogue operation = .ok fragment)
    (hd : fragment.direct = some site) :
    ∃ id, operation = .tailCall id ∧ id ≠ 0 ∧ (id.toInt - 1).toNat < p.descriptors ∧
      direct p.frame depth (id.toInt - 1).toNat = .ok (fragment.code, site) := by
  cases operation with
  | tailCall id =>
    obtain ⟨_, _, _, rfl⟩ | ⟨hid, hlt, code, found, hc, rfl⟩ := tailCall_eq_ok h
    · cases hd
    · cases hd
      exact ⟨id, rfl, hid, hlt, hc⟩
  | exit =>
    cases epilogue with
    | none =>
      cases h
      cases hd
    | some start =>
      obtain ⟨code, _, h⟩ := bind_eq_ok.mp h
      cases h
      cases hd
  | call id subprogram =>
    obtain ⟨_, _, _, _, _, rfl⟩ := call_eq_ok.mp h
    cases hd
  | fetch =>
    obtain ⟨code, _, h⟩ := bind_eq_ok.mp h
    cases h
    cases hd
  | jump off =>
    obtain ⟨_, _, _, _, rfl⟩ := lower_jump h
    cases hd
  | branch =>
    obtain ⟨code, _, h⟩ := bind_eq_ok.mp h
    cases h
    cases hd
  | _ =>
    cases h
    cases hd

namespace Installation

/-- What installing one tail call consists of. -/
theorem step_eq_ok {s s' : Installation} {d : DirectSite} (h : s.step d = (s', .ok ())) :
    ∃ site descriptor table table' image' token,
      (d.place s.image.base : Result Error PatchSite) = .ok site ∧
      s.descriptors[d.descriptor]? = some descriptor ∧
      s.tables[descriptor.table]? = some table ∧
      table.install descriptor.key site s.image = .ok (table', image', token) ∧
      s' = {
        descriptors := s.descriptors.set d.descriptor { descriptor with site := some site }
        tables := s.tables.setIfInBounds descriptor.table table'
        image := image'
        installed := s.installed ++ [(descriptor.table, token)] } := by
  unfold step at h
  split at h
  · cases h
  · rename_i site hsite
    split at h
    · cases h
    · rename_i descriptor hd
      dsimp only at h
      split at h
      · cases h
      · rename_i table ht
        split at h
        · cases h
        · rename_i table' image' token hi
          cases h
          exact ⟨site, descriptor, table, table', image', token, hsite, hd, ht, hi, rfl⟩

/-- Installing one tail call keeps the block and every byte outside its two fields. -/
theorem step_frame {s s' : Installation} {d : DirectSite} (h : s.step d = (s', .ok ())) :
    Image.SameBlock s'.image s.image ∧
      ∀ i, ¬d.Covers i → s'.image.bytes[i]? = s.image.bytes[i]? := by
  obtain ⟨site, descriptor, table, table', image', token, hsite, _, _, hi, rfl⟩ := step_eq_ok h
  obtain ⟨hbypass, htarget, _, _⟩ := DirectSite.place_eq_ok hsite
  obtain ⟨_, _, _, ⟨_, rfl⟩ | ⟨entry, landing, middle, _, _, hm, hl⟩⟩ := Table.install_eq_ok hi
  · exact ⟨.refl _, fun _ _ => rfl⟩
  · obtain ⟨_, _, _, _, h1⟩ := Table.patchFresh_eq_ok (by omega) hm
    have hbase := h1.same.base_eq
    obtain ⟨_, _, _, _, h2⟩ := Table.patchFresh_eq_ok (by rw [hbase]; omega) hl
    refine ⟨h2.same.trans h1.same, fun i hi => ?_⟩
    rw [hbase] at h2
    unfold DirectSite.Covers at hi
    rw [h2.outside i (by omega), h1.outside i (by omega)]

/-- What installing a tail call and the ones behind it consists of. -/
theorem run_cons {s done : Installation} {d : DirectSite} {rest : List DirectSite}
    (h : s.run (d :: rest) = (done, .ok ())) :
    ∃ next, s.step d = (next, .ok ()) ∧ next.run rest = (done, .ok ()) := by
  rw [run] at h
  split at h
  · rename_i next hn
    exact ⟨next, hn, h⟩
  · cases h

/-- Installing tail calls keeps the block and every byte outside their fields. -/
theorem run_frame {s done : Installation} {sites : List DirectSite}
    (h : s.run sites = (done, .ok ())) :
    Image.SameBlock done.image s.image ∧
      ∀ i, (∀ d ∈ sites, ¬d.Covers i) → done.image.bytes[i]? = s.image.bytes[i]? := by
  induction sites generalizing s with
  | nil =>
    cases h
    exact ⟨.refl _, fun _ _ => rfl⟩
  | cons d rest ih =>
    obtain ⟨next, hn, hr⟩ := run_cons h
    obtain ⟨hb1, hf1⟩ := step_frame hn
    obtain ⟨hb2, hf2⟩ := ih hr
    refine ⟨hb2.trans hb1, fun i hi => ?_⟩
    rw [hf2 i (fun d hd => hi d (by simp [hd])), hf1 i (hi d (by simp))]

end Installation

/-- Two steps of one list are the same step, or one stands before the other. -/
theorem Virtual.steps_cases {before after before' after' : List Step} {s s' : Step}
    (h : before ++ s :: after = before' ++ s' :: after') :
    (before = before' ∧ s = s') ∨ (∃ middle, before' = before ++ s :: middle) ∨
      ∃ middle, before = before' ++ s' :: middle := by
  rcases List.append_eq_append_iff.mp h with ⟨middle, hb, ha⟩ | ⟨middle, hb, ha⟩
  · cases middle with
    | nil =>
      rw [List.append_nil] at hb
      exact .inl ⟨hb.symm, (List.cons.inj ha).1⟩
    | cons x middle => exact .inr (.inl ⟨middle, by rw [hb, (List.cons.inj ha).1]⟩)
  · cases middle with
    | nil =>
      rw [List.append_nil] at hb
      exact .inl ⟨hb, (List.cons.inj ha).1.symm⟩
    | cons x middle => exact .inr (.inr ⟨middle, by rw [hb, (List.cons.inj ha).1]⟩)

namespace PassOutput

variable {p : Pass} {out : PassOutput} {steps : List Step}

/-- A patchable field that reaches into the code of a step is one of the step's own. -/
theorem own_of_covers (h : p.run steps = .ok out) (hslots : ∀ x ∈ steps, 1 ≤ x.slots)
    {before after : List Step} {s : Step} {depth : UInt32} {operation : Operation}
    {epilogue : Option Nat} {fragment : Fragment} (hs : steps = before ++ s :: after)
    (hh : out.Holds p depth before s operation epilogue fragment) {d : DirectSite}
    (hd : d ∈ out.direct) {i : Nat} (h1 : out.offset (slotCount before) ≤ i)
    (h2 : i < out.offset (slotCount before) + codeSize fragment.code) (hi : d.Covers i) :
    ∃ depth' epilogue' fragment' site, out.Holds p depth' before s operation epilogue' fragment' ∧
      fragment'.direct = some site ∧ d = site.shift (out.offset (slotCount before)) := by
  obtain ⟨before', s', after', depth', operation', epilogue', fragment', site, hs', hh', hsite,
    rfl⟩ := direct_of_run h hslots hd
  obtain ⟨id, rfl, _, _, hdirect⟩ := Pass.lower_direct hh'.lowered hsite
  obtain ⟨hf1, hf2⟩ := direct_fields hdirect
  obtain ⟨_, hmono, _⟩ := offsets_of_run h hslots
  have hcount : ∀ {front back : List Step} {x : Step}, steps = front ++ x :: back →
      slotCount front + x.slots ≤ slotCount steps := fun hx => by
    rw [hx, slotCount_append, slotCount_cons]
    omega
  have hstop := hh.stop_eq s.slots (hslots s (by simp [hs])) (Nat.le_refl _)
  have hstop' := hh'.stop_eq s'.slots (hslots s' (by simp [hs'])) (Nat.le_refl _)
  unfold DirectSite.Covers DirectSite.shift at hi
  dsimp only at hi
  rcases steps_cases (hs.symm.trans hs') with ⟨rfl, rfl⟩ | ⟨middle, rfl⟩ | ⟨middle, rfl⟩
  · obtain rfl := Except.ok.inj (hh.operation_eq.symm.trans hh'.operation_eq)
    exact ⟨depth', epilogue', fragment', site, hh', hsite, rfl⟩
  · have hle := hmono (slotCount before + s.slots) (slotCount (before ++ s :: middle))
      (by rw [slotCount_append, slotCount_cons]; omega) (by have := hcount hs'; omega)
    omega
  · have hle := hmono (slotCount before' + s'.slots) (slotCount (before' ++ s' :: middle))
      (by rw [slotCount_append, slotCount_cons]; omega) (by have := hcount hs; omega)
    omega

/-- A step whose fragment has no patchable fields shares no byte with the fields of the direct
tail calls. -/
theorem not_covers_of_holds (h : p.run steps = .ok out) (hslots : ∀ x ∈ steps, 1 ≤ x.slots)
    {before after : List Step} {s : Step} {depth : UInt32} {operation : Operation}
    {epilogue : Option Nat} {fragment : Fragment} (hs : steps = before ++ s :: after)
    (hh : out.Holds p depth before s operation epilogue fragment)
    (hop : ∀ id, operation ≠ .tailCall id) {d : DirectSite} (hd : d ∈ out.direct) {i : Nat}
    (h1 : out.offset (slotCount before) ≤ i)
    (h2 : i < out.offset (slotCount before) + codeSize fragment.code) : ¬d.Covers i := by
  intro hi
  obtain ⟨_, _, _, site, hh', hsite, _⟩ := own_of_covers h hslots hs hh hd h1 h2 hi
  obtain ⟨id, hid, _⟩ := Pass.lower_direct hh'.lowered hsite
  exact hop id hid

end PassOutput

/-- The code of a pass stands in the image it was written to. -/
theorem holdsAt_of_writeImage {image written : Image} {out : PassOutput} {probes : Nat}
    {exceptions : ExceptionTable} (h : writeImage image out probes = .ok (written, exceptions))
    {start : Nat} {data rest : List UInt8} (hcode : out.codeFrom start = data ++ rest) :
    written.HoldsAt start data := by
  obtain ⟨_, _, _, hwritten⟩ := writeImage_eq_ok h
  intro j hj
  have hget : out.code[start + j]? = data[j]? := by
    rw [← Array.getElem?_toList, ← List.getElem?_drop, ← PassOutput.codeFrom, hcode,
      List.getElem?_append_left hj]
  have hsome : out.code[start + j]?.isSome := by
    rw [hget, List.getElem?_eq_getElem hj]
    rfl
  rw [hwritten _ (by simpa using hsome), hget]

namespace Emits

variable {source : Source} {tables : Array Table} {e : Emission} {done : Installation}
  {c : CompiledProgram}

/-- Emitted code stands in the image it was written to. -/
theorem written_holdsAt (he : Emits source tables e done c) {start : Nat} {data rest : List UInt8}
    (hcode : e.out.codeFrom start = data ++ rest) : e.written.HoldsAt start data := by
  obtain ⟨fresh, hw⟩ := he.written_eq
  exact holdsAt_of_writeImage hw hcode

/-- The image of a compiled program is the written one outside the fields of its direct tail
calls. -/
theorem image_frame (he : Emits source tables e done c) {i : Nat}
    (hd : ∀ d ∈ e.out.direct, ¬d.Covers i) : c.image.bytes[i]? = e.written.bytes[i]? := by
  obtain ⟨_, hframe⟩ := Installation.run_frame he.installed_eq
  rw [he.image_eq]
  exact hframe i hd

/-- The image of a compiled program is the block that was written. -/
theorem image_block (he : Emits source tables e done c) :
    c.image.base = e.written.base ∧ c.image.size = e.written.size := by
  obtain ⟨hblock, _⟩ := Installation.run_frame he.installed_eq
  rw [he.image_eq]
  exact ⟨hblock.base_eq, hblock.size_eq⟩

/-- Emitted code that shares no byte with the fields of direct tail calls stands in the image. -/
theorem holdsAt_of_codeFrom (he : Emits source tables e done c) {start : Nat}
    {data rest : List UInt8} (hcode : e.out.codeFrom start = data ++ rest)
    (hfree : ∀ d ∈ e.out.direct, ∀ i, start ≤ i → i < start + data.length → ¬d.Covers i) :
    c.image.HoldsAt start data :=
  (he.written_holdsAt hcode).congr fun i h1 h2 =>
    he.image_frame fun d hd => hfree d hd i h1 h2

/-- The code of a step without patchable fields stands in the image of the compiled program. -/
theorem holdsAt_step (he : Emits source tables e done c) {before after : List Step} {s : Step}
    {depth : UInt32} {operation : Operation} {epilogue : Option Nat} {fragment : Fragment}
    (hs : source.program.steps = before ++ s :: after)
    (hh : e.out.Holds e.pass depth before s operation epilogue fragment)
    (hop : ∀ id, operation ≠ .tailCall id) :
    c.image.HoldsAt (e.out.offset (slotCount before)) (encodeAll fragment.code) := by
  obtain ⟨rest, hrest⟩ := hh.code_eq
  have hslots : ∀ x ∈ source.program.steps, 1 ≤ x.slots := fun x hx => one_le_slots hx
  refine he.holdsAt_of_codeFrom hrest fun d hd i h1 h2 => ?_
  rw [length_encodeAll] at h2
  exact PassOutput.not_covers_of_holds he.run_eq hslots hs hh hop hd h1 h2

/-- The prologue stands at the start of the image of the compiled program. -/
theorem holdsAt_prologue (he : Emits source tables e done c) :
    ∃ depth, source.frame.IsDepth depth ∧
      e.out.offset 0 = codeSize (source.frame.prologue depth) ∧
      c.image.HoldsAt 0 (encodeAll (source.frame.prologue depth)) := by
  have hslots : ∀ x ∈ source.program.steps, 1 ≤ x.slots := fun x hx => one_le_slots hx
  obtain ⟨padding, hp⟩ := he.pass_eq
  have hframe : e.pass.frame = source.frame := by rw [hp]; rfl
  obtain ⟨_, hmono, _, depth, rest, hd, hoff, hcode⟩ := PassOutput.offsets_of_run he.run_eq hslots
  rw [hframe] at hd hoff hcode
  refine ⟨depth, hd, hoff, he.holdsAt_of_codeFrom hcode fun d hm i _ hi => ?_⟩
  obtain ⟨before, s, after, _, _, _, _, site, hs, _, _, rfl⟩ :=
    PassOutput.direct_of_run he.run_eq hslots hm
  have hle := hmono 0 (slotCount before) (by omega)
    (by rw [hs, slotCount_append]; omega)
  rw [length_encodeAll] at hi
  unfold DirectSite.Covers DirectSite.shift
  dsimp only
  omega

end Emits

end NativeForge
