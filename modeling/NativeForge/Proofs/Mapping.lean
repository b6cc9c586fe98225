import NativeForge.Proofs.Patching

/-!
# Mapped images

The images that are mapped never overlap, so an address belongs to one image at most and the whole
space reads like one memory. A patch that is not refused changes the five bytes of its site in
this memory, keeps every other byte and moves no image.
-/

namespace NativeForge

open Target

/-- The bytes from an address on are the given data. -/
def Reads (read : Nat → Option UInt8) (a : Nat) (data : List UInt8) : Prop :=
  ∀ j < data.length, read (a + j) = data[j]?

/-- Memories that agree on a range read the same there. -/
theorem Reads.congr {read read' : Nat → Option UInt8} {a : Nat} {data : List UInt8}
    (h : Reads read a data) (hr : ∀ i, a ≤ i → i < a + data.length → read' i = read i) :
    Reads read' a data := by
  intro j hj
  rw [hr _ (by omega) (by omega), h j hj]

/-- Two data of one length that are read at one address are the same. -/
theorem Reads.unique {read : Nat → Option UInt8} {a : Nat} {data data' : List UInt8}
    (h : Reads read a data) (h' : Reads read a data') (hl : data.length = data'.length) :
    data = data' := by
  apply List.ext_getElem?
  intro j
  by_cases hj : j < data.length
  · rw [← h j hj, h' j (by omega)]
  · rw [List.getElem?_eq_none (by omega), List.getElem?_eq_none (by omega)]

/-- The address lies in the five bytes of the site. -/
def SiteCovers (ip : Address) (a : Nat) : Prop := ip.toNat ≤ a ∧ a < ip.toNat + siteSize

namespace Image

/-- The byte at an address, if the address lies in the block. -/
def byteAt (image : Image) (a : Nat) : Option UInt8 :=
  if image.base.toNat ≤ a then image.bytes[a - image.base.toNat]? else none

/-- The bytes of a block by address and by offset. -/
@[simp]
theorem byteAt_base_add (image : Image) (i : Nat) :
    image.byteAt (image.base.toNat + i) = image.bytes[i]? := by
  unfold byteAt
  rw [if_pos (by omega), Nat.add_sub_cancel_left]

/-- An address with a byte lies in the block. -/
theorem inside_of_byteAt {image : Image} {a : Nat} {b : UInt8} (h : image.byteAt a = some b) :
    image.base.toNat ≤ a ∧ a < image.base.toNat + image.size := by
  unfold byteAt at h
  split at h
  · obtain ⟨hlt, _⟩ := Array.getElem?_eq_some_iff.mp h
    unfold size
    omega
  · cases h

/-- Data that is read in a block by address stands there by offset. -/
theorem reads_iff_holdsAt {image : Image} {a offset : Nat} {data : List UInt8}
    (ha : a = image.base.toNat + offset) : Reads image.byteAt a data ↔ image.HoldsAt offset data := by
  subst ha
  unfold Reads HoldsAt
  simp only [Nat.add_assoc, byteAt_base_add]

/-- The same bytes of the same block are the same bytes of memory. -/
theorem byteAt_congr {a b : Image} (hs : a.base = b.base) {x : Nat}
    (h : ∀ i, x = b.base.toNat + i → a.bytes[i]? = b.bytes[i]?) : a.byteAt x = b.byteAt x := by
  unfold byteAt
  rw [hs]
  split
  · exact h _ (by omega)
  · rfl

/-- Rewriting a site leaves the addresses outside it alone. -/
theorem Rewrites.byteAt_eq {image image' : Image} {ip : Address} {old new : List UInt8}
    (hr : image.Rewrites image' (ip.toNat - image.base.toNat) old new)
    (hip : image.base.toNat ≤ ip.toNat) {a : Nat} (ha : ¬SiteCovers ip a) :
    image'.byteAt a = image.byteAt a := by
  refine byteAt_congr hr.same.base_eq fun i hi => hr.outside i ?_
  unfold SiteCovers at ha
  omega

/-- No address lies in both blocks. -/
def Apart (a b : Image) : Prop :=
  a.base.toNat + a.size ≤ b.base.toNat ∨ b.base.toNat + b.size ≤ a.base.toNat

/-- Whether blocks are apart can be decided. -/
instance (a b : Image) : Decidable (a.Apart b) :=
  inferInstanceAs (Decidable (_ ∨ _))

/-- Being apart is mutual. -/
theorem Apart.symm {a b : Image} (h : a.Apart b) : b.Apart a := Or.symm h

/-- Blocks that are apart stay apart when their bytes change. -/
theorem Apart.congr {a a' b b' : Image} (h : a.Apart b) (ha : SameBlock a' a)
    (hb : SameBlock b' b) : a'.Apart b' := by
  unfold Apart at h ⊢
  rw [ha.base_eq, hb.base_eq, ha.size_eq, hb.size_eq]
  exact h

end Image

/-- Replacing an element by itself changes nothing. -/
theorem setIfInBounds_of_getElem? {α : Type} {xs : Array α} {n : Nat} {x : α}
    (h : xs[n]? = some x) : xs.setIfInBounds n x = xs := by
  refine Array.ext_getElem? fun m => ?_
  rw [Array.getElem?_setIfInBounds]
  split
  · rename_i hn
    subst hn
    rw [if_pos (Array.getElem?_eq_some_iff.mp h).1, h]
  · rfl

namespace Space

/-- The byte at an address of the mapped images. -/
def byteAt (space : Space) (a : Nat) : Option UInt8 :=
  space.images.toList.findSome? fun slot => slot.bind fun image => image.byteAt a

/-- Mapped images do not overlap. -/
def Separate (space : Space) : Prop :=
  ∀ m n a b, m ≠ n → space.get? m = some a → space.get? n = some b → a.Apart b

/-- An image of the space is one of its slots. -/
theorem get?_eq_some {space : Space} {n : Nat} {image : Image} :
    space.get? n = some image ↔ space.images[n]? = some (some image) := by
  unfold get?
  cases space.images[n]? <;> simp

/-- The images after one was replaced. -/
theorem get?_set {space : Space} {number : Nat} (h : number < space.images.size)
    (image : Option Image) (n : Nat) :
    (space.set number image).get? n = if n = number then image else space.get? n := by
  unfold get? set
  dsimp only
  rw [Array.getElem?_setIfInBounds]
  by_cases hn : n = number
  · subst hn
    simp [h]
  · rw [if_neg (Ne.symm hn), if_neg hn]

/-- Replacing an image by itself changes nothing. -/
theorem set_of_get? {space : Space} {number : Nat} {image : Image}
    (h : space.get? number = some image) : space.set number (some image) = space :=
  congrArg Space.mk (setIfInBounds_of_getElem? (get?_eq_some.mp h))

/-- The images after a further one was mapped. -/
theorem get?_push (space : Space) (image : Option Image) (n : Nat) :
    (space.push image).get? n = if n = space.images.size then image else space.get? n := by
  unfold get? push
  dsimp only
  rw [Array.getElem?_push]
  split
  · rfl
  · rfl

/-- An image has a number below the number of slots. -/
theorem lt_of_get? {space : Space} {n : Nat} {image : Image} (h : space.get? n = some image) :
    n < space.images.size :=
  (Array.getElem?_eq_some_iff.mp (get?_eq_some.mp h)).1

/-- An address of the space lies in one of its images. -/
theorem byteAt_eq_some_iff {space : Space} (hs : space.Separate) {a : Nat} {b : UInt8} :
    space.byteAt a = some b ↔ ∃ n image, space.get? n = some image ∧ image.byteAt a = some b := by
  have hof : ∀ c, space.byteAt a = some c →
      ∃ n image, space.get? n = some image ∧ image.byteAt a = some c := by
    intro c hc
    obtain ⟨slot, hm, hslot⟩ := List.exists_of_findSome?_eq_some hc
    obtain ⟨image, rfl, hb⟩ := Option.bind_eq_some_iff.mp hslot
    obtain ⟨n, hn⟩ := List.mem_iff_getElem?.mp hm
    exact ⟨n, image, get?_eq_some.mpr (by rw [← hn, Array.getElem?_toList]), hb⟩
  refine ⟨hof b, ?_⟩
  rintro ⟨n, image, hg, hb⟩
  -- Some image is found, and it can only be this one, since no other holds the address.
  cases hc : space.byteAt a with
  | none =>
    have hn := List.findSome?_eq_none_iff.mp hc (some image)
      (List.mem_of_getElem? (by rw [Array.getElem?_toList]; exact get?_eq_some.mp hg))
    rw [Option.bind_some, hb] at hn
    cases hn
  | some c =>
    obtain ⟨m, other, hgm, hbm⟩ := hof c hc
    by_cases hmn : m = n
    · subst hmn
      rw [hg] at hgm
      cases hgm
      rw [← hbm, hb]
    · have hapart := hs m n other image hmn hgm hg
      have h1 := Image.inside_of_byteAt hb
      have h2 := Image.inside_of_byteAt hbm
      unfold Image.Apart at hapart
      omega

/-- In the range of an image the space reads like the image. -/
theorem byteAt_eq_of_get? {space : Space} (hs : space.Separate) {n : Nat} {image : Image}
    (hg : space.get? n = some image) {a : Nat} (h1 : image.base.toNat ≤ a)
    (h2 : a < image.base.toNat + image.size) : space.byteAt a = image.byteAt a := by
  obtain ⟨b, hb⟩ : ∃ b, image.byteAt a = some b := by
    unfold Image.byteAt
    unfold Image.size at h2
    rw [if_pos h1]
    exact ⟨_, Array.getElem?_eq_getElem (by omega)⟩
  rw [hb]
  exact (byteAt_eq_some_iff hs).mpr ⟨n, image, hg, hb⟩

/-- Mapping an image into unused memory keeps the images separate. -/
theorem Separate.push {space : Space} (hs : space.Separate) {image : Image}
    (h : ∀ n mapped, space.get? n = some mapped → mapped.Apart image) :
    (space.push (some image)).Separate := by
  intro m n a b hmn ha hb
  rw [get?_push] at ha hb
  split at ha
  · cases ha
    split at hb
    · omega
    · exact (h n b hb).symm
  · split at hb
    · cases hb
      exact h m a ha
    · exact hs m n a b hmn ha hb

/-- Unmapping an image keeps the others separate. -/
theorem Separate.set_none {space : Space} (hs : space.Separate) {number : Nat}
    (hlt : number < space.images.size) : (space.set number none).Separate := by
  intro m n a b hmn ha hb
  rw [get?_set hlt] at ha hb
  split at ha
  · cases ha
  · split at hb
    · cases hb
    · exact hs m n a b hmn ha hb

/-- Two spaces have the same blocks under the same numbers. -/
structure SameBlocks (a b : Space) : Prop where
  /-- As many slots. -/
  size_eq : a.images.size = b.images.size
  /-- Where the first space has a gap, the second has one. -/
  gap : ∀ n, a.get? n = none → b.get? n = none
  /-- Every image of the first space is the same block in the second. -/
  block : ∀ n image, a.get? n = some image → ∃ image', b.get? n = some image' ∧
    image.SameBlock image'

/-- Every image has a successor in a space with the same blocks. -/
theorem SameBlocks.get? {a b : Space} (h : SameBlocks a b) {n : Nat} {image : Image}
    (hg : b.get? n = some image) : ∃ image', a.get? n = some image' ∧ image'.SameBlock image := by
  cases ha : a.get? n with
  | none =>
    rw [h.gap n ha] at hg
    cases hg
  | some image' =>
    obtain ⟨other, ho, hs⟩ := h.block n image' ha
    rw [hg] at ho
    cases ho
    exact ⟨image', rfl, hs⟩

/-- A space has its own blocks. -/
theorem SameBlocks.refl (a : Space) : SameBlocks a a :=
  ⟨rfl, fun _ h => h, fun _ image h => ⟨image, h, .refl image⟩⟩

/-- Having the same blocks is transitive. -/
theorem SameBlocks.trans {a b c : Space} (h : SameBlocks a b) (g : SameBlocks b c) :
    SameBlocks a c := by
  refine ⟨h.size_eq.trans g.size_eq, fun n hn => g.gap n (h.gap n hn), fun n image hn => ?_⟩
  obtain ⟨middle, hm, h1⟩ := h.block n image hn
  obtain ⟨last, hl, h2⟩ := g.block n middle hm
  exact ⟨last, hl, h1.trans h2⟩

/-- The same blocks are as separate. -/
theorem SameBlocks.separate {a b : Space} (h : SameBlocks a b) (hb : b.Separate) : a.Separate := by
  intro m n x y hmn hx hy
  obtain ⟨x', hx', hsx⟩ := h.block m x hx
  obtain ⟨y', hy', hsy⟩ := h.block n y hy
  exact (hb m n x' y' hmn hx' hy').congr hsx hsy

/-- Nothing moved, and no byte changed outside a set of addresses. -/
structure Keeps (before after : Space) (changed : Nat → Prop) : Prop where
  /-- The blocks are the same. -/
  same : SameBlocks after before
  /-- The other bytes are the same. -/
  outside : ∀ a, ¬changed a → after.byteAt a = before.byteAt a

/-- Changes of fewer addresses are changes of more. -/
theorem Keeps.mono {before after : Space} {p q : Nat → Prop} (h : Keeps before after p)
    (hpq : ∀ a, p a → q a) : Keeps before after q :=
  ⟨h.same, fun a ha => h.outside a fun hp => ha (hpq a hp)⟩

/-- Changes one after the other. -/
theorem Keeps.trans {a b c : Space} {p : Nat → Prop} (h : Keeps a b p) (g : Keeps b c p) :
    Keeps a c p :=
  ⟨g.same.trans h.same, fun x hx => (g.outside x hx).trans (h.outside x hx)⟩

/-- A space keeps itself. -/
theorem Keeps.refl (a : Space) (p : Nat → Prop) : Keeps a a p := ⟨.refl a, fun _ _ => rfl⟩

/-- Replacing an image by one with a rewritten site changes the site and nothing else. -/
theorem keeps_set {space : Space} (hs : space.Separate) {number : Nat} {image image' : Image}
    {ip : Address} {old new : List UInt8} (hg : space.get? number = some image)
    (hip : image.base.toNat ≤ ip.toNat)
    (hr : image.Rewrites image' (ip.toNat - image.base.toNat) old new) :
    Keeps space (space.set number (some image')) (SiteCovers ip) := by
  have hget := get?_set (lt_of_get? hg) (some image')
  have hsame : SameBlocks (space.set number (some image')) space := by
    refine ⟨Array.size_setIfInBounds, fun n hn => ?_, fun n x hx => ?_⟩
    · rw [hget] at hn
      split at hn
      · cases hn
      · exact hn
    · rw [hget] at hx
      split at hx
      · rename_i hn
        cases hx
        exact ⟨image, hn ▸ hg, hr.same⟩
      · exact ⟨x, hx, .refl x⟩
  refine ⟨hsame, fun a ha => ?_⟩
  have hbyte : image'.byteAt a = image.byteAt a := hr.byteAt_eq hip ha
  -- An address reads what some image holds there, and every image still holds the same.
  apply Option.ext
  intro b
  rw [byteAt_eq_some_iff (hsame.separate hs), byteAt_eq_some_iff hs]
  constructor
  · rintro ⟨n, x, hx, hb⟩
    rw [hget] at hx
    split at hx
    · cases hx
      exact ⟨number, image, hg, hbyte ▸ hb⟩
    · exact ⟨n, x, hx, hb⟩
  · rintro ⟨n, x, hx, hb⟩
    by_cases hn : n = number
    · subst hn
      rw [hg] at hx
      cases hx
      exact ⟨n, image', by rw [hget, if_pos rfl], hbyte ▸ hb⟩
    · exact ⟨n, x, by rw [hget, if_neg hn, hx], hb⟩

end Space

end NativeForge
