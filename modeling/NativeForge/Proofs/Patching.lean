import NativeForge.Proofs.Writing

/-!
# Patches of single sites

A patch that is not refused finds exactly the bytes it expects, leaves the bytes it wants, and
changes nothing outside its five bytes. This holds for fresh images and for code that may be
running; `Image.Rewrites` states it once for both.
-/

namespace NativeForge

open X64 Target TailCall

namespace Image

/-- The image holds the data from an offset on. -/
def HoldsAt (image : Image) (offset : Nat) (data : List UInt8) : Prop :=
  ∀ j < data.length, image.bytes[offset + j]? = data[j]?

/-- A range of an image holds the bytes that are read from it. -/
theorem holdsAt_iff_extract {image : Image} {offset : Nat} {data : List UInt8}
    (h : offset + data.length ≤ image.size) :
    image.HoldsAt offset data ↔
      (image.bytes.extract offset (offset + data.length)).toList = data := by
  have hsize : (image.bytes.extract offset (offset + data.length)).toList.length = data.length := by
    rw [Array.length_toList, Array.size_extract]
    unfold Image.size at h
    omega
  have hget : ∀ j < data.length, (image.bytes.extract offset (offset + data.length)).toList[j]? =
      image.bytes[offset + j]? := by
    intro j hj
    rw [Array.getElem?_toList, Array.getElem?_extract]
    unfold Image.size at h
    rw [if_pos (by omega)]
  constructor
  · intro hd
    apply List.ext_getElem?
    intro j
    by_cases hj : j < data.length
    · rw [hget j hj, hd j hj]
    · rw [List.getElem?_eq_none (by omega), List.getElem?_eq_none (by omega)]
  · intro hd j hj
    rw [← hget j hj, hd]

/-- An image that agrees on a range holds the same data there. -/
theorem HoldsAt.congr {a b : Image} {offset : Nat} {data : List UInt8} (h : a.HoldsAt offset data)
    (hab : ∀ i, offset ≤ i → i < offset + data.length → b.bytes[i]? = a.bytes[i]?) :
    b.HoldsAt offset data := by
  intro j hj
  rw [hab _ (by omega) (by omega), h j hj]

/-- A site changed from one content to another and nothing else changed. -/
structure Rewrites (image image' : Image) (offset : Nat) (old new : List UInt8) : Prop where
  /-- The image is the same block. -/
  same : SameBlock image' image
  /-- The site lies in the block. -/
  inside : offset + siteSize ≤ image.size
  /-- The site held what was expected. -/
  before : image.HoldsAt offset old
  /-- The site holds what was wanted. -/
  after : image'.HoldsAt offset new
  /-- No other byte changed. -/
  outside : ∀ i, i < offset ∨ offset + siteSize ≤ i → image'.bytes[i]? = image.bytes[i]?

end Image

/-- The instruction of a site takes five bytes. -/
theorem siteBytes_length {ip : Address} {kind : PatchKind} {target : Option Address}
    {bytes : List UInt8} (h : siteBytes ip kind target = .ok bytes) : bytes.length = siteSize := by
  obtain ⟨i, hi, h⟩ := bind_eq_ok.mp h
  obtain rfl := pure_eq_ok.mp h
  cases target with
  | none =>
    cases hi
    rfl
  | some target =>
    obtain ⟨rel, _, hi⟩ := bind_eq_ok.mp hi
    cases kind with
    | call =>
      cases hi
      simp [Instr.encode, Bytes.ofInt32, Bytes.ofUInt32, siteSize]
    | jump =>
      cases hi
      simp [Instr.encode, Bytes.ofInt32, Bytes.ofUInt32, siteSize]

namespace Image

/-- Putting a site's new bytes over its old ones rewrites the site. -/
theorem rewrites_poke {image : Image} {offset : Nat} {old new : List UInt8}
    (hn : new.length = siteSize) (hsize : offset + siteSize ≤ image.size)
    (hold : image.HoldsAt offset old) : Rewrites image (image.poke offset new) offset old new := by
  have hget := getElem?_poke image offset new (by omega)
  refine ⟨sameBlock_poke _ _ _, hsize, hold, fun j hj => ?_, fun i hi => ?_⟩
  · rw [hget, if_pos (by omega), show offset + j - offset = j by omega]
  · rw [hget, if_neg (by omega)]

/-- Leaving a site alone rewrites it to the bytes it already holds. -/
theorem rewrites_refl {image : Image} {offset : Nat} {old : List UInt8}
    (hsize : offset + siteSize ≤ image.size) (hold : image.HoldsAt offset old) :
    Rewrites image image offset old old :=
  ⟨.refl _, hsize, hold, hold, fun _ _ => rfl⟩

/-- What a patch of a fresh image did: the bytes it was asked for exist, and unless it was refused
it rewrote the site. -/
theorem patchFresh_eq_ok {image image' : Image} {offset : Nat} {patch : Patch}
    {outcome : PatchOutcome} (h : image.patchFresh offset patch = .ok (outcome, image'))
    (hm : outcome ≠ .mismatch) :
    ∃ ip old new, ip.toNat = image.base.toNat + offset ∧ siteBytes ip patch.kind patch.old = .ok old ∧
      siteBytes ip patch.kind patch.new = .ok new ∧ Rewrites image image' offset old new := by
  unfold patchFresh at h
  obtain ⟨ip, hip, h⟩ := bind_eq_ok.mp h
  obtain ⟨old, hold, h⟩ := bind_eq_ok.mp h
  obtain ⟨new, hnew, h⟩ := bind_eq_ok.mp h
  obtain ⟨current, hc, h⟩ := bind_eq_ok.mp h
  obtain ⟨hsize, rfl⟩ := read_eq_ok hc
  have hlo := siteBytes_length hold
  have hln := siteBytes_length hnew
  refine ⟨ip, old, new, plus_eq_ok.mp hip, hold, hnew, ?_⟩
  split at h
  · obtain ⟨rfl, _⟩ := Prod.mk.inj (pure_eq_ok.mp h)
    exact absurd rfl hm
  · rename_i hne
    rw [← hlo] at hne hsize
    have hh := (holdsAt_iff_extract hsize).mpr (Decidable.not_not.mp hne)
    rw [hlo] at hsize
    split at h
    · rename_i heq
      obtain ⟨_, rfl⟩ := Prod.mk.inj (pure_eq_ok.mp h)
      subst heq
      exact rewrites_refl hsize hh
    · obtain ⟨written, hw, h⟩ := bind_eq_ok.mp h
      obtain ⟨_, rfl⟩ := Prod.mk.inj (pure_eq_ok.mp h)
      obtain ⟨_, _, rfl⟩ := write_eq_ok (mapCause_eq_ok.mp hw)
      exact rewrites_poke hln hsize hh

/-- What a patch came to: the answer, the bytes that were expected and wanted, and the site with the
bytes it has to hold. -/
theorem judge_eq_ok {image : Image} {offset : Nat} {patch : Patch} {outcome : PatchOutcome}
    {data : List UInt8} (h : image.judge offset patch = .ok (outcome, data)) :
    outcome = .mismatch ∨
      ∃ ip old, ip.toNat = image.base.toNat + offset ∧
        siteBytes ip patch.kind patch.old = .ok old ∧ siteBytes ip patch.kind patch.new = .ok data ∧
        offset + siteSize ≤ image.size ∧ image.HoldsAt offset old ∧
        (outcome = .unchanged ∧ old = data ∨ outcome = .patched) := by
  unfold judge at h
  obtain ⟨ip, hip, h⟩ := bind_eq_ok.mp h
  obtain ⟨old, hold, h⟩ := bind_eq_ok.mp h
  obtain ⟨new, hnew, h⟩ := bind_eq_ok.mp h
  obtain ⟨current, hc, h⟩ := bind_eq_ok.mp h
  obtain ⟨hsize, hcurrent⟩ := read_eq_ok hc
  have hlength := siteBytes_length hold
  split at h
  · exact .inl (Prod.mk.inj (pure_eq_ok.mp h)).1.symm
  · rename_i hne
    have hmatch := Decidable.not_not.mp hne
    have hholds : image.HoldsAt offset old := by
      rw [← hlength] at hsize hcurrent
      exact (holdsAt_iff_extract hsize).mpr (hcurrent.symm.trans hmatch)
    split at h
    · rename_i heq
      obtain ⟨rfl, rfl⟩ := Prod.mk.inj (pure_eq_ok.mp h)
      rw [← heq] at hnew
      exact .inr ⟨ip, old, plus_eq_ok.mp hip, hold, hnew, hsize, hholds, .inl ⟨rfl, hmatch.symm⟩⟩
    · obtain ⟨rfl, rfl⟩ := Prod.mk.inj (pure_eq_ok.mp h)
      exact .inr ⟨ip, old, plus_eq_ok.mp hip, hold, hnew, hsize, hholds, .inr rfl⟩

/-- What a patch of code that may be running did, whatever the system answered: it left the image
alone, or it rewrote the site. Only a patch that failed or did not match left the image alone. -/
theorem patchLive_cases {image image' : Image} {offset : Nat} {patch : Patch} {access : Access}
    {r : Result Error PatchOutcome} (h : image.patchLive offset patch access = (image', r)) :
    (image' = image ∧ ∀ outcome, r = .ok outcome → outcome = .mismatch) ∨
      ∃ ip old new, ip.toNat = image.base.toNat + offset ∧
        siteBytes ip patch.kind patch.old = .ok old ∧ siteBytes ip patch.kind patch.new = .ok new ∧
        Rewrites image image' offset old new ∧ r ≠ .ok .mismatch := by
  unfold patchLive at h
  split at h
  · cases h
    exact .inl ⟨rfl, fun _ hr => by cases hr⟩
  · -- the site has to be written
    rename_i new hj
    rcases judge_eq_ok hj with hm | ⟨ip, old, hip, hold, hnew, hsize, hholds, _⟩
    · cases hm
    have hr := rewrites_poke (siteBytes_length hnew) hsize hholds
    cases access with
    | granted =>
      cases h
      exact .inr ⟨ip, old, new, hip, hold, hnew, hr, by simp⟩
    | refused =>
      cases h
      exact .inl ⟨rfl, fun _ hr => by cases hr⟩
    | unrestored =>
      cases h
      exact .inr ⟨ip, old, new, hip, hold, hnew, hr, by simp [report]⟩
  · rename_i outcome data hpatched hj
    cases h
    rcases judge_eq_ok hj with rfl | ⟨ip, old, hip, hold, hnew, hsize, hholds, hcase⟩
    · exact .inl ⟨rfl, fun _ hr => (Except.ok.inj hr).symm⟩
    · rcases hcase with ⟨rfl, rfl⟩ | rfl
      · exact .inr ⟨ip, old, old, hip, hold, hnew, rewrites_refl hsize hholds, by simp⟩
      · exact absurd rfl hpatched

/-- A patch that succeeded would have done the same if everything had been granted. -/
theorem patchLive_granted {image image' : Image} {offset : Nat} {patch : Patch} {access : Access}
    {outcome : PatchOutcome} (h : image.patchLive offset patch access = (image', .ok outcome)) :
    image.patchLive offset patch = (image', .ok outcome) := by
  unfold patchLive at h ⊢
  split at h
  · cases h
  · cases access with
    | granted => exact h
    | refused => cases h
    | unrestored => cases h
  · exact h

end Image

end NativeForge
