import NativeForge.Proofs.Mapping

/-!
# Sites that agree with a slot

The two fields of a direct tail call show the slot that they were set for: for an empty slot the
bypass jumps past the site and the target field does nothing, for an entry the bypass does nothing
and the target field jumps into the entry. What the bytes of a field have to be is said here by
the jump they encode, in the arithmetic of 64-bit addresses.
-/

namespace NativeForge

open X64 Target

/-- The instruction of a field without a target: five bytes that do nothing. -/
def emptyField : List UInt8 := [0x0F, 0x1F, 0x44, 0x00, 0x00]

/-- The bytes are a jump from `ip` to `target`: the opcode, and the distance from the end of the
jump as a signed 32-bit number. -/
def EncodesJump (ip target : Address) (data : List UInt8) : Prop :=
  ∃ rel : Int32, data = 0xE9 :: Bytes.ofInt32 rel ∧
    ((ip.toNat : Int) + 5 + rel.toInt) % 2 ^ 64 = target.toNat

/-- A jump at `ip` can lead to `target`. -/
def Reachable (ip target : Address) : Prop := ∃ data, EncodesJump ip target data

/-- The bytes are the instruction of a field at `ip` with the given target. -/
def FieldContent (ip : Address) (target : Option Address) (data : List UInt8) : Prop :=
  match target with
  | none => data = emptyField
  | some target => EncodesJump ip target data

/-- The field at `ip` has the given target. -/
def FieldHolds (read : Nat → Option UInt8) (ip : Address) (target : Option Address) : Prop :=
  ∃ data, FieldContent ip target data ∧ Reads read ip.toNat data

/-- Different distances are different bytes. -/
theorem ofInt32_length (rel : Int32) : (Bytes.ofInt32 rel).length = 4 := by
  simp [Bytes.ofInt32, Bytes.ofUInt32]

/-- A field has five bytes. -/
theorem FieldContent.length_eq {ip : Address} {target : Option Address} {data : List UInt8}
    (h : FieldContent ip target data) : data.length = siteSize := by
  cases target with
  | none =>
    unfold FieldContent at h
    rw [h]
    rfl
  | some target =>
    obtain ⟨rel, rfl, _⟩ := h
    rw [List.length_cons, ofInt32_length]
    rfl

/-- The bytes of a field are determined by its target. -/
theorem FieldContent.unique {ip : Address} {target : Option Address} {data data' : List UInt8}
    (h : FieldContent ip target data) (h' : FieldContent ip target data') : data = data' := by
  cases target with
  | none => exact Eq.trans h (Eq.symm h')
  | some target =>
    obtain ⟨rel, rfl, hrel⟩ := h
    obtain ⟨rel', rfl, hrel'⟩ := h'
    have h1 := rel.toInt_lt
    have h2 := rel.le_toInt
    have h3 := rel'.toInt_lt
    have h4 := rel'.le_toInt
    have heq : rel = rel' := Int32.toInt_inj.mp (by omega)
    rw [heq]

/-- A checked signed number is the number or a crash. -/
theorem signedWord64_cases {ε : Type} (v : Int) :
    (-(2 ^ 63) ≤ v ∧ v < 2 ^ 63 ∧ (signedWord64 v : Result ε Int) = .ok v) ∨
      (signedWord64 v : Result ε Int) = .error .crash := by
  unfold signedWord64
  by_cases h : -(2 ^ 63) ≤ v ∧ v < 2 ^ 63
  · exact .inl ⟨h.1, h.2, if_pos h⟩
  · exact .inr (if_neg h)

/-- The distance that a patch computes leads to the target, unless the target cannot be reached. -/
theorem siteDisplacement_cases (ip dest : Address) :
    (∃ rel, siteDisplacement ip dest = .ok rel ∧
        ((ip.toNat : Int) + 5 + rel.toInt) % 2 ^ 64 = dest.toNat) ∨
      siteDisplacement ip dest = .error .crash ∨
      ∃ distance, ¬Reachable ip dest ∧
        siteDisplacement ip dest = outOfRange .patchTarget distance := by
  have hip := ip.toNat_lt
  have hto := dest.toNat_lt
  have hs := Address.signed_eq ip
  have ht := Address.signed_eq dest
  have hsize : (siteSize : Int) = 5 := rfl
  unfold siteDisplacement
  rcases signedWord64_cases (ε := Error) (ip.signed + siteSize) with ⟨_, _, h1⟩ | h1
  · rw [h1]
    rcases signedWord64_cases (ε := Error) (dest.signed - (ip.signed + siteSize)) with ⟨h3, h4, h2⟩ | h2
    · simp only [bind, Except.bind, h2]
      by_cases hf : fitsInt32 (dest.signed - (ip.signed + siteSize)) = true
      · have hfit := fitsInt32_iff.mp hf
        rw [if_pos hf]
        refine .inl ⟨_, rfl, ?_⟩
        rw [Int32.toInt_ofInt_of_le (by omega) (by omega)]
        split at hs <;> split at ht <;> omega
      · rw [if_neg hf]
        refine .inr (.inr ⟨_, ?_, rfl⟩)
        rintro ⟨data, rel, _, hrel⟩
        have hlt := rel.toInt_lt
        have hle := rel.le_toInt
        -- A reachable target would be at the distance `rel`, which fits.
        refine hf (fitsInt32_iff.mpr ?_)
        split at hs <;> split at ht <;> omega
    · refine .inr (.inl ?_)
      simp only [bind, Except.bind, h2]
  · rw [h1]
    exact .inr (.inl rfl)

/-- The bytes asked for by a patch are the bytes of a field, unless its target cannot be reached. -/
theorem siteBytes_cases (ip : Address) (target : Option Address) :
    (∃ data, siteBytes ip .jump target = .ok data ∧ FieldContent ip target data) ∨
      siteBytes ip .jump target = .error .crash ∨
      ∃ dest distance, target = some dest ∧ ¬Reachable ip dest ∧
        siteBytes ip .jump target = outOfRange .patchTarget distance := by
  cases target with
  | none => exact .inl ⟨_, rfl, rfl⟩
  | some dest =>
    have hbytes : siteBytes ip .jump (some dest) =
        (siteDisplacement ip dest).map fun rel => 0xE9 :: Bytes.ofInt32 rel := by
      unfold siteBytes siteInstr
      dsimp only
      cases siteDisplacement ip dest <;> rfl
    rw [hbytes]
    rcases siteDisplacement_cases ip dest with ⟨rel, h, hrel⟩ | h | ⟨distance, hfar, h⟩
    · rw [h]
      exact .inl ⟨_, rfl, rel, rfl, hrel⟩
    · rw [h]
      exact .inr (.inl rfl)
    · rw [h]
      exact .inr (.inr ⟨dest, distance, rfl, hfar, rfl⟩)

/-- The bytes that a patch writes are the bytes of the field it wants. -/
theorem fieldContent_of_siteBytes {ip : Address} {target : Option Address} {data : List UInt8}
    (h : siteBytes ip .jump target = .ok data) : FieldContent ip target data := by
  rcases siteBytes_cases ip target with ⟨data', h', hc⟩ | h' | ⟨_, _, _, _, h'⟩
  · rw [h] at h'
    cases h'
    exact hc
  · rw [h] at h'
    cases h'
  · rw [h] at h'
    cases h'

/-- Memories that agree on a field give it the same target. -/
theorem FieldHolds.congr {read read' : Nat → Option UInt8} {ip : Address} {target : Option Address}
    (h : FieldHolds read ip target) (hr : ∀ a, SiteCovers ip a → read' a = read a) :
    FieldHolds read' ip target := by
  obtain ⟨data, hc, hd⟩ := h
  have hlen := hc.length_eq
  exact ⟨data, hc, hd.congr fun i h1 h2 => hr i ⟨h1, by omega⟩⟩

/-- A rewritten field has the target that was wanted. -/
theorem fieldHolds_of_rewrites {image image' : Image} {ip : Address} {target : Option Address}
    {old new : List UInt8} (hip : image.base.toNat ≤ ip.toNat)
    (hnew : siteBytes ip .jump target = .ok new)
    (hr : image.Rewrites image' (ip.toNat - image.base.toNat) old new) :
    FieldHolds image'.byteAt ip target :=
  ⟨new, fieldContent_of_siteBytes hnew,
    (Image.reads_iff_holdsAt (by rw [hr.same.base_eq]; omega)).mpr hr.after⟩

/-- The image that an address is found in holds the address. -/
theorem Space.find?_eq_some {space : Space} {ip : Address} {number : Nat}
    (h : space.find? ip = some number) :
    ∃ image, space.get? number = some image ∧ image.base.toNat ≤ ip.toNat := by
  obtain ⟨hlt, hin, _⟩ := Array.findIdx?_eq_some_iff_getElem.mp h
  have hget := Array.getElem?_eq_getElem hlt
  cases hslot : space.images[number] with
  | none =>
    rw [hslot] at hin
    cases hin
  | some image =>
    rw [hslot] at hget hin
    exact ⟨image, get?_eq_some.mpr hget, (decide_eq_true_iff.mp hin).1⟩

/-- A field of an image that holds what is expected matches, unless the new target cannot be
reached. -/
theorem Image.judge_of_holdsAt {image : Image} {offset : Nat} {ip : Address}
    (hip : ip.toNat = image.base.toNat + offset) {old new : Option Address} {data : List UInt8}
    (hc : FieldContent ip old data)
    (hd : offset + siteSize ≤ image.size → image.HoldsAt offset data) :
    (∃ outcome wanted, image.judge offset (TailCall.jumpPatch old new) = .ok (outcome, wanted) ∧
        outcome ≠ .mismatch) ∨
      image.judge offset (TailCall.jumpPatch old new) = .error .crash ∨
      ∃ dest distance, new = some dest ∧ ¬Reachable ip dest ∧
        image.judge offset (TailCall.jumpPatch old new) = outOfRange .patchTarget distance := by
  unfold judge TailCall.jumpPatch
  dsimp only
  rw [plus_eq_ok.mpr hip]
  simp only [bind, Except.bind]
  rcases siteBytes_cases ip old with ⟨expected, hold, hco⟩ | hold | ⟨dest, _, rfl, hfar, _⟩
  · obtain rfl := hco.unique hc
    rw [hold]
    dsimp only
    rcases siteBytes_cases ip new with ⟨wanted, hnew, _⟩ | hnew | ⟨dest, distance, rfl, hfar, hnew⟩
    · rw [hnew]
      dsimp only
      unfold read
      by_cases hsize : offset + siteSize ≤ image.size
      · have hd := hd hsize
        rw [if_pos hsize]
        rw [← hco.length_eq] at hsize ⊢
        dsimp only
        rw [(holdsAt_iff_extract hsize).mp hd, if_neg (fun h => h rfl)]
        split
        · exact .inl ⟨_, _, rfl, by decide⟩
        · exact .inl ⟨_, _, rfl, by decide⟩
      · rw [if_neg hsize]
        exact .inr (.inl rfl)
    · rw [hnew]
      exact .inr (.inl rfl)
    · rw [hnew]
      exact .inr (.inr ⟨dest, distance, rfl, hfar, rfl⟩)
  · rw [hold]
    exact .inr (.inl rfl)
  · exact absurd ⟨data, hc⟩ hfar

/-- A patch that matches is carried out if everything is granted. -/
theorem Image.patchLive_of_judge {image : Image} {offset : Nat} {patch : Patch}
    {outcome : PatchOutcome} {wanted : List UInt8}
    (h : image.judge offset patch = .ok (outcome, wanted)) :
    ∃ image', image.patchLive offset patch = (image', .ok outcome) := by
  unfold patchLive
  rw [h]
  cases outcome with
  | patched => exact ⟨_, rfl⟩
  | unchanged => exact ⟨_, rfl⟩
  | mismatch => exact ⟨_, rfl⟩

/-- A patch fails without an effect if its targets do. -/
theorem Image.patchLive_of_judge_error {image : Image} {offset : Nat} {patch : Patch}
    {f : Failure Error} (h : image.judge offset patch = .error f) :
    image.patchLive offset patch = (image, .error f) := by
  unfold patchLive
  rw [h]

/-- What a patch of a field does, whatever the system answers: it changes nothing, or it gives the
field its new target. A patch that succeeds changes nothing only if it does not match. -/
theorem Space.patch_cases {space next : Space} (hs : space.Separate) {ip : Address}
    {old new : Option Address} {access : Access} {r : Result Error PatchOutcome}
    (h : space.patch ip (TailCall.jumpPatch old new) access = (next, r)) :
    (next = space ∧ ∀ outcome, r = .ok outcome → outcome = .mismatch) ∨
      (space.Keeps next (SiteCovers ip) ∧ FieldHolds next.byteAt ip new ∧ r ≠ .ok .mismatch) := by
  unfold patch at h
  split at h
  · cases h
    exact .inl ⟨rfl, fun _ hr => by cases hr⟩
  · rename_i number hf
    obtain ⟨image, hg, hbase⟩ := find?_eq_some hf
    obtain ⟨image', answer, hp⟩ : ∃ image' answer, image.patchLive (ip.toNat - image.base.toNat)
        (TailCall.jumpPatch old new) access = (image', answer) := ⟨_, _, rfl⟩
    rw [hg] at h
    dsimp only at h
    rw [hp] at h
    cases h
    rcases Image.patchLive_cases hp with ⟨rfl, hok⟩ | ⟨ip', before, after, hip', _, hnew, hr, hm⟩
    · exact .inl ⟨set_of_get? hg, hok⟩
    · obtain rfl : ip' = ip := UInt64.toNat_inj.mp (by omega)
      have hkeep := keeps_set hs hg hbase hr
      refine .inr ⟨hkeep, ?_, hm⟩
      have hg' : (space.set number (some image')).get? number = some image' := by
        rw [get?_set (lt_of_get? hg), if_pos rfl]
      have hsize := hr.same.size_eq
      have hinside := hr.inside
      refine (fieldHolds_of_rewrites hbase hnew hr).congr fun a ha => ?_
      unfold SiteCovers at ha
      rw [byteAt_eq_of_get? (hkeep.same.separate hs) hg' (by rw [hr.same.base_eq]; omega)
        (by rw [hr.same.base_eq]; omega)]

/-- A patch that succeeded would have done the same if everything had been granted. -/
theorem Space.patch_granted {space next : Space} {ip : Address} {patch : Patch} {access : Access}
    {outcome : PatchOutcome} (h : space.patch ip patch access = (next, .ok outcome)) :
    space.patch ip patch = (next, .ok outcome) := by
  unfold Space.patch at h ⊢
  split at h
  · cases h
  · split at h
    · cases h
    · dsimp only at h ⊢
      obtain ⟨hnext, hanswer⟩ := Prod.mk.inj h
      rw [Image.patchLive_granted (Prod.ext rfl hanswer), hnext]

/-- Patching a field that holds what is expected gives it the new target, unless the new target
cannot be reached. -/
theorem Space.patch_of_fieldHolds {space : Space} (hs : space.Separate) {ip : Address}
    {old : Option Address} (hold : FieldHolds space.byteAt ip old) (new : Option Address) :
    (∃ outcome middle, space.patch ip (TailCall.jumpPatch old new) = (middle, .ok outcome) ∧
        outcome ≠ .mismatch ∧ space.Keeps middle (SiteCovers ip) ∧
        FieldHolds middle.byteAt ip new) ∨
      space.patch ip (TailCall.jumpPatch old new) = (space, .error .crash) ∨
      ∃ dest distance, new = some dest ∧ ¬Reachable ip dest ∧
        space.patch ip (TailCall.jumpPatch old new) =
          (space, outOfRange .patchTarget distance) := by
  have hdone : ∀ outcome next, space.patch ip (TailCall.jumpPatch old new) = (next, .ok outcome) →
      outcome ≠ .mismatch → space.Keeps next (SiteCovers ip) ∧ FieldHolds next.byteAt ip new := by
    intro outcome next h hm
    rcases patch_cases hs h with ⟨_, hok⟩ | ⟨hkeep, hnew, _⟩
    · exact absurd (hok outcome rfl) hm
    · exact ⟨hkeep, hnew⟩
  unfold patch at hdone ⊢
  cases hf : space.find? ip with
  | none => exact .inr (.inl rfl)
  | some number =>
    obtain ⟨image, hg, hbase⟩ := find?_eq_some hf
    rw [hf] at hdone
    dsimp only at hdone ⊢
    rw [hg] at hdone ⊢
    dsimp only at hdone ⊢
    obtain ⟨data, hc, hd⟩ := hold
    have hip : ip.toNat = image.base.toNat + (ip.toNat - image.base.toNat) := by omega
    have hlen := hc.length_eq
    have hholds : ip.toNat - image.base.toNat + siteSize ≤ image.size →
        image.HoldsAt (ip.toNat - image.base.toNat) data := by
      intro hsize
      rw [← Image.reads_iff_holdsAt hip]
      refine hd.congr fun i h1 h2 => ?_
      rw [byteAt_eq_of_get? hs hg (by omega) (by omega)]
    rcases Image.judge_of_holdsAt hip hc hholds with ⟨outcome, wanted, hj, hm⟩ | hj | hj
    · obtain ⟨image', hp⟩ := Image.patchLive_of_judge hj
      rw [hp] at hdone ⊢
      obtain ⟨hkeep, hnew⟩ := hdone outcome _ rfl hm
      exact .inl ⟨outcome, _, rfl, hm, hkeep, hnew⟩
    · rw [Image.patchLive_of_judge_error hj, set_of_get? hg]
      exact .inr (.inl rfl)
    · obtain ⟨dest, distance, rfl, hfar, hj⟩ := hj
      rw [Image.patchLive_of_judge_error hj, set_of_get? hg]
      exact .inr (.inr ⟨dest, distance, rfl, hfar, rfl⟩)

namespace TailCall

/-- The first of several patches gives its field the new target and the others follow, or its new
target cannot be reached and nothing is done. -/
theorem patchAll_cons {space space' : Space} (hs : space.Separate) {ip : Address}
    {old new : Option Address} (hold : FieldHolds space.byteAt ip old)
    {rest : List (Address × Patch)} {r : Result Error Unit}
    (h : patchAll space ((ip, jumpPatch old new) :: rest) = (space', r))
    (hr : r ≠ .error .crash) :
    (∃ middle, space.Keeps middle (SiteCovers ip) ∧ FieldHolds middle.byteAt ip new ∧
        patchAll middle rest = (space', r)) ∨
      (space' = space ∧ ∃ dest distance, new = some dest ∧ ¬Reachable ip dest ∧
        r = outOfRange .patchTarget distance) := by
  rw [patchAll, List.headD_nil, List.tail_nil] at h
  rcases space.patch_of_fieldHolds hs hold new with ⟨outcome, middle, hp, hm, hk, hf⟩ | hp |
    ⟨dest, distance, rfl, hfar, hp⟩
  · rw [hp] at h
    cases outcome with
    | mismatch => exact absurd rfl hm
    | patched => exact .inl ⟨middle, hk, hf, h⟩
    | unchanged => exact .inl ⟨middle, hk, hf, h⟩
  · rw [hp] at h
    cases h
    exact absurd rfl hr
  · rw [hp] at h
    cases h
    exact .inr ⟨rfl, dest, distance, rfl, hfar, rfl⟩

/-- Patches that all succeeded would have done the same if everything had been granted. -/
theorem patchAll_granted {space space' : Space} {patches : List (Address × Patch)}
    {access : List Access} (h : patchAll space patches access = (space', .ok ())) :
    patchAll space patches = (space', .ok ()) := by
  induction patches generalizing space access with
  | nil => exact h
  | cons first rest ih =>
    obtain ⟨ip, patch⟩ := first
    rw [patchAll] at h ⊢
    rw [List.headD_nil, List.tail_nil]
    split at h
    · cases h
    · cases h
    · rename_i next outcome hm hp
      rw [Space.patch_granted hp]
      cases outcome with
      | mismatch => exact absurd rfl hm
      | patched => exact ih h
      | unchanged => exact ih h

namespace PatchSite

/-- The address lies in one of the two fields. -/
def Covers (site : PatchSite) (a : Nat) : Prop :=
  SiteCovers site.bypass a ∨ SiteCovers site.target a

/-- The fields of a site as they stand in an image: the bypass before the target, and the place
where execution resumes right behind it. -/
structure Placed (site : PatchSite) : Prop where
  /-- The fields do not overlap. -/
  fields : site.bypass.toNat + siteSize ≤ site.target.toNat
  /-- Execution resumes behind the target field. -/
  resume_eq : site.resume.toNat = site.target.toNat + siteSize
  /-- The bypass can jump over the site. -/
  near : site.resume.toNat < site.bypass.toNat + siteSize + 2 ^ 31
  /-- Jumps go past the first bytes of an entry. -/
  skip_eq : site.skip = tailCallSkip

/-- The sites share no bytes. -/
def Apart (s t : PatchSite) : Prop :=
  s.resume.toNat ≤ t.bypass.toNat ∨ t.resume.toNat ≤ s.bypass.toNat

/-- The target field of the site can jump into the entry. -/
def Reaches (site : PatchSite) (entry : Address) : Prop :=
  ∃ landing : Address, landing.toNat = entry.toNat + tailCallSkip ∧ Reachable site.target landing

/-- The fields of the site are those for a slot: with an empty slot the bypass jumps past the site
and the target field does nothing, with an entry the bypass does nothing and the target field
jumps into the entry. -/
def Shows (site : PatchSite) (read : Nat → Option UInt8) (slot : Option Address) : Prop :=
  match slot with
  | none => FieldHolds read site.bypass (some site.resume) ∧ FieldHolds read site.target none
  | some entry => FieldHolds read site.bypass none ∧
      ∃ landing : Address, landing.toNat = entry.toNat + tailCallSkip ∧
        FieldHolds read site.target (some landing)

/-- Memories that agree on the fields of a site show the same slot. -/
theorem Shows.congr {site : PatchSite} {read read' : Nat → Option UInt8} {slot : Option Address}
    (h : site.Shows read slot) (hr : ∀ a, site.Covers a → read' a = read a) :
    site.Shows read' slot := by
  have hbypass : ∀ a, SiteCovers site.bypass a → read' a = read a := fun a ha => hr a (.inl ha)
  have htarget : ∀ a, SiteCovers site.target a → read' a = read a := fun a ha => hr a (.inr ha)
  cases slot with
  | none => exact ⟨h.1.congr hbypass, h.2.congr htarget⟩
  | some entry =>
    obtain ⟨hb, landing, hl, ht⟩ := h
    exact ⟨hb.congr hbypass, landing, hl, ht.congr htarget⟩

/-- The bypass of a site reaches its end. -/
theorem Placed.reachable_resume {site : PatchSite} (h : site.Placed) :
    Reachable site.bypass site.resume := by
  have h1 := h.fields
  have h2 := h.resume_eq
  have h3 := h.near
  have hlt := site.resume.toNat_lt
  have hsize : siteSize = 5 := rfl
  refine ⟨_, Int32.ofInt (site.resume.toNat - site.bypass.toNat - 5), rfl, ?_⟩
  rw [Int32.toInt_ofInt_of_le (by omega) (by omega)]
  omega

/-- The fields of a placed site share no address. -/
theorem Placed.not_covers {site : PatchSite} (h : site.Placed) {a : Nat}
    (ha : SiteCovers site.bypass a) : ¬SiteCovers site.target a := by
  have h1 := h.fields
  unfold SiteCovers at ha ⊢
  omega

/-- No address lies in fields of two sites that are apart. -/
theorem Apart.not_covers {s t : PatchSite} (h : s.Apart t) (hs : s.Placed) (ht : t.Placed) {a : Nat}
    (ha : s.Covers a) : ¬t.Covers a := by
  have h1 := hs.fields
  have h2 := hs.resume_eq
  have h3 := ht.fields
  have h4 := ht.resume_eq
  unfold Apart at h
  unfold Covers SiteCovers at ha ⊢
  omega

/-- Where a target jump goes for an entry. -/
theorem landing_eq_ok {ε : Type} {site : PatchSite} {slot landing : Option Address}
    (h : (site.landing slot : Result ε (Option Address)) = .ok landing) :
    (slot = none ∧ landing = none) ∨
      ∃ entry dest : Address, slot = some entry ∧ landing = some dest ∧
        dest.toNat = entry.toNat + site.skip := by
  cases slot with
  | none =>
    cases h
    exact .inl ⟨rfl, rfl⟩
  | some entry =>
    obtain ⟨dest, hto, h⟩ := bind_eq_ok.mp h
    cases pure_eq_ok.mp h
    exact .inr ⟨entry, dest, rfl, rfl, plus_eq_ok.mp hto⟩

/-- The only failure on the way to the patches of a site is an address that does not exist. -/
theorem patches_eq_error {ε : Type} {site : PatchSite} {old new : Option Address} {f : Failure ε}
    (h : (site.patches old new : Result ε (List (Address × Patch))) = .error f) : f = .crash := by
  have hlanding : ∀ slot : Option Address,
      (site.landing slot : Result ε (Option Address)) = .error f → f = .crash := by
    intro slot hs
    cases slot with
    | none => cases hs
    | some entry =>
      rcases bind_eq_error.mp hs with hs | ⟨_, _, hs⟩
      · exact plus_eq_error hs
      · cases hs
  rcases bind_eq_error.mp h with h | ⟨_, _, h⟩
  · exact hlanding old h
  rcases bind_eq_error.mp h with h | ⟨_, _, h⟩
  · exact hlanding new h
  cases new with
  | none => cases h
  | some _ => cases h

/-- The patches of a site and those behind them: the site comes to show the new slot and the
others follow, or the new entry cannot be reached and nothing is done. -/
theorem patchAll_patches {site : PatchSite} (hp : site.Placed) {space space' : Space}
    (hs : space.Separate) {old new : Option Address} (hold : site.Shows space.byteAt old)
    {group rest : List (Address × Patch)} {r : Result Error Unit}
    (hg : (site.patches old new : Result Error (List (Address × Patch))) = .ok group)
    (h : patchAll space (group ++ rest) = (space', r)) (hr : r ≠ .error .crash) :
    (∃ middle, space.Keeps middle site.Covers ∧ site.Shows middle.byteAt new ∧
        patchAll middle rest = (space', r)) ∨
      (space' = space ∧ ∃ entry distance, new = some entry ∧ ¬site.Reaches entry ∧
        r = outOfRange .patchTarget distance) := by
  obtain ⟨oldLanding, hol, hg⟩ := bind_eq_ok.mp hg
  obtain ⟨newLanding, hnl, hg⟩ := bind_eq_ok.mp hg
  have htarget : FieldHolds space.byteAt site.target oldLanding := by
    rcases landing_eq_ok hol with ⟨rfl, rfl⟩ | ⟨entry, dest, rfl, rfl, hto⟩
    · exact hold.2
    · obtain ⟨_, landing, hl, ht⟩ := hold
      obtain rfl : landing = dest := UInt64.toNat_inj.mp (by rw [hl, hto, hp.skip_eq])
      exact ht
  cases new with
  | some entry =>
    obtain rfl := pure_eq_ok.mp hg
    rcases landing_eq_ok hnl with ⟨he, _⟩ | ⟨_, dest, he, rfl, hto⟩
    · cases he
    cases he
    rw [hp.skip_eq] at hto
    rcases patchAll_cons hs htarget h hr with ⟨middle, hk, hf, h⟩ |
      ⟨rfl, _, distance, hn, hfar, hrest⟩
    -- The target is in place; the bypass is opened if it was closed.
    · have hmiddle := hk.same.separate hs
      have hbypass : ∀ a, SiteCovers site.bypass a → middle.byteAt a = space.byteAt a :=
        fun a ha => hk.outside a (hp.not_covers ha)
      have hk := hk.mono (q := site.Covers) fun a ha => .inr ha
      cases old with
      | some _ => exact .inl ⟨middle, hk, ⟨hold.1.congr hbypass, dest, hto, hf⟩, h⟩
      | none =>
        rcases patchAll_cons hmiddle (hold.1.congr hbypass) h hr with ⟨last, hk', hf', h⟩ |
          ⟨_, _, _, hn, _⟩
        · have htarget : FieldHolds last.byteAt site.target (some dest) :=
            hf.congr fun a ha => hk'.outside a fun hb => hp.not_covers hb ha
          exact .inl ⟨last, hk.trans (hk'.mono fun a ha => .inl ha), ⟨hf', dest, hto, htarget⟩, h⟩
        · cases hn
    · cases hn
      refine .inr ⟨rfl, entry, distance, rfl, ?_, hrest⟩
      rintro ⟨landing, hl, hreach⟩
      obtain rfl : landing = dest := UInt64.toNat_inj.mp (by omega)
      exact hfar hreach
  | none =>
    obtain rfl := pure_eq_ok.mp hg
    rcases landing_eq_ok hnl with ⟨_, rfl⟩ | ⟨_, _, hn, _⟩
    · have hbypass : FieldHolds space.byteAt site.bypass
          (if old.isSome then none else some site.resume) := by
        cases old with
        | none => exact hold.1
        | some _ => exact hold.1
      rcases patchAll_cons hs hbypass h hr with ⟨middle, hk, hf, h⟩ | ⟨_, _, _, hn, hfar, _⟩
      · have htarget' : FieldHolds middle.byteAt site.target oldLanding :=
          htarget.congr fun a ha => hk.outside a fun hb => hp.not_covers hb ha
        rcases patchAll_cons (hk.same.separate hs) htarget' h hr with ⟨last, hk', hf', h⟩ |
          ⟨_, _, _, hn, _⟩
        · have hclosed : FieldHolds last.byteAt site.bypass (some site.resume) :=
            hf.congr fun a ha => hk'.outside a (hp.not_covers ha)
          have hkeep := (hk.mono (q := site.Covers) fun a ha => .inl ha).trans
            (hk'.mono fun a ha => .inr ha)
          exact .inl ⟨last, hkeep, ⟨hclosed, hf'⟩, h⟩
        · cases hn
      · cases hn
        exact absurd hp.reachable_resume hfar
    · cases hn

end PatchSite

end TailCall

end NativeForge
