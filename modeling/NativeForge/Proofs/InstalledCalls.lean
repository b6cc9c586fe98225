import NativeForge.Proofs.Installing
import NativeForge.Proofs.TableUpdates

/-!
# Installed tail calls

The final pass emits the fields of every direct tail call as for an empty slot, one call behind the
other. Installing them records one entry for each call in the table of its descriptor, under tokens
that the table gave to no other entry, and leaves every call showing the slot of its key. Releasing
the tokens takes exactly these entries out again.
-/

namespace NativeForge

open X64 Virtual Target TailCall

namespace TailCall

/-- The fields of a direct tail call stand in order, close to each other, in code of the given
size. -/
structure DirectSite.Fits (d : DirectSite) (size : Nat) : Prop where
  /-- The fields do not overlap. -/
  fields : d.bypassOffset + siteSize ≤ d.targetOffset
  /-- The fields are close to each other. -/
  near : d.targetOffset < d.bypassOffset + 2 ^ 31
  /-- The fields lie in the code. -/
  inside : d.targetOffset + siteSize ≤ size

/-- The site of a call with its fields in place. -/
theorem DirectSite.Fits.placed {ε : Type} {d : DirectSite} {size : Nat} (h : d.Fits size)
    {base : Address} {site : PatchSite} (hp : (d.place base : Result ε PatchSite) = .ok site) :
    site.Placed := by
  obtain ⟨hb, ht, hr, hs⟩ := DirectSite.place_eq_ok hp
  have h1 := h.fields
  have h2 := h.near
  exact ⟨by omega, by omega, by omega, hs⟩

/-- The fields of a call by address and by offset. -/
theorem DirectSite.covers_of_place {ε : Type} {d : DirectSite} {base : Address} {site : PatchSite}
    (hp : (d.place base : Result ε PatchSite) = .ok site) {i : Nat} :
    site.Covers (base.toNat + i) ↔ d.Covers i := by
  obtain ⟨hb, ht, _, _⟩ := DirectSite.place_eq_ok hp
  unfold PatchSite.Covers SiteCovers DirectSite.Covers
  omega

end TailCall

namespace PassOutput

variable {p : Pass} {out : PassOutput} {steps : List Step}

/-- Direct tail calls are placed one behind the other. -/
theorem place_direct {depth : UInt32} {start : Nat} {epilogue : Option Nat} {placed : List Placed}
    (h : p.place depth steps start epilogue = .ok placed) :
    (∀ d ∈ placed.filterMap Placed.direct?, start ≤ d.bypassOffset) ∧
      (placed.filterMap Placed.direct?).Pairwise fun a b =>
        a.targetOffset + siteSize ≤ b.bypassOffset := by
  induction steps generalizing start epilogue placed with
  | nil =>
    cases h
    exact ⟨fun d hd => absurd hd (by simp), .nil⟩
  | cons step steps ih =>
    obtain ⟨operation, fragment, tail, _, hl, _, ht, rfl⟩ := Pass.place_cons.mp h
    obtain ⟨hstart, hsorted⟩ := ih ht
    cases hd : fragment.direct with
    | none =>
      rw [List.filterMap_cons_none (by simp [Placed.direct?, hd])]
      exact ⟨fun d hm => Nat.le_trans (by omega) (hstart d hm), hsorted⟩
    | some site =>
      obtain ⟨_, _, _, _, hdirect⟩ := Pass.lower_direct hl hd
      obtain ⟨_, hsize⟩ := direct_fields hdirect
      rw [List.filterMap_cons_some (b := site.shift start) (by simp [Placed.direct?, hd])]
      refine ⟨fun d hm => ?_, List.pairwise_cons.mpr ⟨fun d hm => ?_, hsorted⟩⟩
      · rcases List.mem_cons.mp hm with rfl | hm
        · exact Nat.le_add_right _ _
        · exact Nat.le_trans (by omega) (hstart d hm)
      · have hle := hstart d hm
        dsimp only [DirectSite.shift]
        omega

/-- Direct tail calls stand in the code one behind the other. -/
theorem direct_sorted (h : p.run steps = .ok out) :
    out.direct.Pairwise fun a b => a.targetOffset + siteSize ≤ b.bypassOffset := by
  obtain ⟨_, depth, placed, _, hp, rfl⟩ := Pass.run_eq_ok h
  exact (place_direct hp).2

/-- The code of a direct tail call: its fields have their places in the code, with a bypass that
jumps over the site and a target field that does nothing. -/
theorem direct_code (h : p.run steps = .ok out) (hslots : ∀ x ∈ steps, 1 ≤ x.slots)
    {d : DirectSite} (hd : d ∈ out.direct) :
    d.Fits out.code.size ∧
      (∃ rest, out.codeFrom d.bypassOffset =
        (0xE9 :: Bytes.ofInt32 (Int32.ofNat (d.targetOffset - d.bypassOffset))) ++ rest) ∧
      ∃ rest, out.codeFrom d.targetOffset = emptyField ++ rest := by
  obtain ⟨before, s, after, depth, operation, epilogue, fragment, site, _, hh, hsite, rfl⟩ :=
    direct_of_run h hslots hd
  obtain ⟨id, rfl, _, _, hdirect⟩ := Pass.lower_direct hh.lowered hsite
  obtain ⟨hfields, hend⟩ := direct_fields hdirect
  obtain ⟨exhausted, hcode, rfl, hnear⟩ := direct_eq_ok hdirect
  have hrel := exhausted.toInt_lt
  have hfront := codeSize_counting depth exhausted
  generalize counting depth (.byte exhausted) = front at hcode hfront
  obtain ⟨rest, hrest⟩ := hh.code_eq
  have hsize : siteSize = 5 := rfl
  have hlen := congrArg List.length hrest
  rw [codeFrom, List.length_drop, Array.length_toList, List.length_append, length_encodeAll] at hlen
  dsimp only [DirectSite.shift] at hfields hend ⊢
  -- Behind the offset of the step stand the front part, the bypass, the teardown and the target.
  have hparts : out.codeFrom (out.offset (slotCount before)) = encodeAll front ++
      (0xE9 :: Bytes.ofInt32 (Int32.ofNat (codeSize (p.frame.teardown depth) + siteSize))) ++
      encodeAll (p.frame.teardown depth) ++ emptyField ++ rest := by
    rw [hrest, hcode]
    simp only [encodeAll_append, encodeAll_cons, encodeAll_nil, List.append_nil]
    rfl
  refine ⟨⟨by dsimp only; omega, by dsimp only; omega, by dsimp only; omega⟩,
    ⟨encodeAll (p.frame.teardown depth) ++ emptyField ++ rest, ?_⟩, rest, ?_⟩
  · rw [codeFrom, ← List.drop_drop, ← codeFrom, hparts]
    simp only [List.append_assoc]
    rw [List.drop_left' ((length_encodeAll front).trans hfront)]
    have hdistance : ∀ n : Nat, n + (25 + codeSize (p.frame.teardown depth)) - (n + 20) =
        codeSize (p.frame.teardown depth) + siteSize := by omega
    rw [hdistance]
  · rw [codeFrom, ← List.drop_drop, ← codeFrom, hparts, List.append_assoc _ emptyField]
    refine List.drop_left' ?_
    simp only [List.length_append, length_encodeAll, List.length_cons, ofInt32_length]
    omega

end PassOutput

/-- The fields of an emitted call have their places in the image that the code was written to, and
show an empty slot there. -/
theorem direct_of_writeImage {p : Pass} {program : Program} {out : PassOutput}
    {image written : Image} {probes : Nat} {exceptions : ExceptionTable}
    (h : p.run program.steps = .ok out)
    (hw : writeImage image out probes = .ok (written, exceptions)) {d : DirectSite}
    (hd : d ∈ out.direct) :
    d.Fits written.size ∧ ∀ site, (d.place written.base : Result Error PatchSite) = .ok site →
      site.Shows written.byteAt none := by
  obtain ⟨hfit, ⟨_, hbypass⟩, _, htarget⟩ :=
    PassOutput.direct_code h (fun x hx => one_le_slots hx) hd
  obtain ⟨hblock, _, hroom, _⟩ := writeImage_eq_ok hw
  have hfields := hfit.fields
  have hnear := hfit.near
  have hinside := hfit.inside
  refine ⟨⟨hfields, hnear, by rw [hblock.size_eq]; omega⟩, fun site hp => ?_⟩
  obtain ⟨hb, ht, hr, _⟩ := DirectSite.place_eq_ok hp
  have hlt := site.resume.toNat_lt
  have hsize : siteSize = 5 := rfl
  have hto : (Int32.ofNat (d.targetOffset - d.bypassOffset)).toInt =
      (d.targetOffset : Int) - d.bypassOffset := by
    rw [Int32.toInt_ofNat_of_lt (by omega)]
    omega
  have hjump : EncodesJump site.bypass site.resume
      (0xE9 :: Bytes.ofInt32 (Int32.ofNat (d.targetOffset - d.bypassOffset))) :=
    ⟨_, rfl, by rw [hto]; omega⟩
  exact ⟨⟨_, hjump, (Image.reads_iff_holdsAt hb).mpr (holdsAt_of_writeImage hw hbypass)⟩,
    emptyField, rfl, (Image.reads_iff_holdsAt ht).mpr (holdsAt_of_writeImage hw htarget)⟩

namespace TailCall

/-- An installed tail call. -/
structure Call where
  /-- Number of the table. -/
  table : Nat
  /-- Token that the table gave. -/
  token : Nat
  /-- Key in the table. -/
  key : UInt32
  /-- Where the call is patched. -/
  site : PatchSite

/-- The entry of a table for a call. -/
def Call.tracked (c : Call) : Tracked := ⟨c.token, c.key, c.site⟩

/-- The entries of a table for calls. -/
def trackedOn (n : Nat) (calls : List Call) : List Tracked :=
  (calls.filter fun c => c.table == n).map Call.tracked

/-- No calls have no entries. -/
@[simp]
theorem trackedOn_nil (n : Nat) : trackedOn n [] = [] := rfl

/-- Entries of calls one behind the other. -/
@[simp]
theorem trackedOn_append (n : Nat) (front back : List Call) :
    trackedOn n (front ++ back) = trackedOn n front ++ trackedOn n back := by
  simp [trackedOn]

/-- The entry of one call. -/
theorem trackedOn_singleton (n : Nat) (c : Call) :
    trackedOn n [c] = if c.table = n then [c.tracked] else [] := by
  by_cases h : c.table = n
  · simp [trackedOn, h]
  · simp [trackedOn, h]

/-- An entry of a table is the entry of a call through it. -/
theorem mem_trackedOn {n : Nat} {calls : List Call} {t : Tracked} :
    t ∈ trackedOn n calls ↔ ∃ c ∈ calls, c.table = n ∧ c.tracked = t := by
  simp [trackedOn, and_assoc]

/-- A table got further entries, under new tokens. -/
structure Table.Extends (t t' : Table) (new : List Tracked) : Prop where
  /-- The number of slots is the same. -/
  maxEntries_eq : t'.maxEntries = t.maxEntries
  /-- The slots are the same. -/
  slots_eq : t'.slots = t.slots
  /-- The entries stand behind those that were there. -/
  tracked_eq : t'.tracked = t.tracked ++ new
  /-- The tokens go on from the last one given. -/
  token_ge : ∀ x ∈ new, t.nextToken ≤ x.token
  /-- The tokens are used up. -/
  token_lt : ∀ x ∈ new, x.token < t'.nextToken
  /-- The tokens go up. -/
  sorted : new.Pairwise fun a b => a.token < b.token
  /-- No token is given again. -/
  next_le : t.nextToken ≤ t'.nextToken

/-- A table without further entries. -/
theorem Table.Extends.refl (t : Table) : t.Extends t [] where
  maxEntries_eq := rfl
  slots_eq := rfl
  tracked_eq := by rw [List.append_nil]
  token_ge := fun x hx => absurd hx (by simp)
  token_lt := fun x hx => absurd hx (by simp)
  sorted := .nil
  next_le := Nat.le_refl _

/-- Further entries one after the other. -/
theorem Table.Extends.trans {a b c : Table} {xs ys : List Tracked} (h : a.Extends b xs)
    (g : b.Extends c ys) : a.Extends c (xs ++ ys) where
  maxEntries_eq := g.maxEntries_eq.trans h.maxEntries_eq
  slots_eq := g.slots_eq.trans h.slots_eq
  tracked_eq := by rw [g.tracked_eq, h.tracked_eq, List.append_assoc]
  token_ge := by
    intro x hx
    rcases List.mem_append.mp hx with hx | hx
    · exact h.token_ge x hx
    · exact Nat.le_trans h.next_le (g.token_ge x hx)
  token_lt := by
    intro x hx
    rcases List.mem_append.mp hx with hx | hx
    · exact Nat.lt_of_lt_of_le (h.token_lt x hx) g.next_le
    · exact g.token_lt x hx
  sorted := by
    refine List.pairwise_append.mpr ⟨h.sorted, g.sorted, fun x hx y hy => ?_⟩
    exact Nat.lt_of_lt_of_le (h.token_lt x hx) (g.token_ge y hy)
  next_le := Nat.le_trans h.next_le g.next_le

/-- Tables got the entries of further calls. -/
structure Extended (tables tables' : Array Table) (calls : List Call) : Prop where
  /-- No table came or went. -/
  size_eq : tables'.size = tables.size
  /-- Every table got its entries. -/
  table : ∀ (n : Nat) (t : Table), tables[n]? = some t →
    ∃ t', tables'[n]? = some t' ∧ t.Extends t' (trackedOn n calls)

/-- Tables without further entries. -/
theorem Extended.refl (tables : Array Table) : Extended tables tables [] :=
  ⟨rfl, fun _ t ht => ⟨t, ht, .refl t⟩⟩

/-- Calls one after the other. -/
theorem Extended.trans {a b c : Array Table} {xs ys : List Call} (h : Extended a b xs)
    (g : Extended b c ys) : Extended a c (xs ++ ys) := by
  refine ⟨g.size_eq.trans h.size_eq, fun n t ht => ?_⟩
  obtain ⟨t', ht', h1⟩ := h.table n t ht
  obtain ⟨t'', ht'', h2⟩ := g.table n t' ht'
  exact ⟨t'', ht'', by rw [trackedOn_append]; exact h1.trans h2⟩

/-- Every table is one of the tables before, with its entries. -/
theorem Extended.exists_before {tables tables' : Array Table} {calls : List Call}
    (h : Extended tables tables' calls) {n : Nat} {t' : Table} (ht : tables'[n]? = some t') :
    ∃ t, tables[n]? = some t ∧ t.Extends t' (trackedOn n calls) := by
  have hlt := (Array.getElem?_eq_some_iff.mp ht).1
  rw [h.size_eq] at hlt
  have hget := Array.getElem?_eq_getElem hlt
  obtain ⟨t'', ht'', he⟩ := h.table n _ hget
  rw [ht] at ht''
  cases ht''
  exact ⟨_, hget, he⟩

/-- Installing a call gives its table one further entry. -/
theorem Table.extended_install {tables : Array Table} {n : Nat} {t t' : Table} {key : UInt32}
    {site : PatchSite} {image image' : Image} {token : Nat} (ht : tables[n]? = some t)
    (h : t.install key site image = .ok (t', image', token)) :
    Extended tables (tables.setIfInBounds n t') [⟨n, token, key, site⟩] := by
  obtain ⟨_, rfl, rfl, _⟩ := Table.install_eq_ok h
  have hlt := (Array.getElem?_eq_some_iff.mp ht).1
  refine ⟨Array.size_setIfInBounds, fun m u hu => ?_⟩
  rw [Array.getElem?_setIfInBounds, trackedOn_singleton]
  by_cases hm : n = m
  · subst hm
    rw [ht] at hu
    cases hu
    rw [if_pos rfl, if_pos hlt, if_pos rfl]
    refine ⟨_, rfl, rfl, rfl, rfl, ?_, ?_, List.pairwise_singleton _ _, by dsimp only; omega⟩
    · intro x hx
      rw [List.mem_singleton.mp hx]
      exact Nat.le_refl _
    · intro x hx
      rw [List.mem_singleton.mp hx]
      exact Nat.lt_succ_self _
  · rw [if_neg hm, if_neg hm]
    exact ⟨u, hu, .refl u⟩

/-- The declared table and key of a tail call. -/
def declared (descriptors : List Descriptor) (number : Nat) : Option (Nat × UInt32) :=
  descriptors[number]?.map fun d => (d.table, d.key)

/-- Recording a site changes no declaration. -/
theorem declared_set {descriptors : List Descriptor} {number : Nat} {d : Descriptor}
    (h : descriptors[number]? = some d) (site : Option PatchSite) (n : Nat) :
    declared (descriptors.set number { d with site := site }) n = declared descriptors n := by
  unfold declared
  rw [List.getElem?_set]
  by_cases hn : number = n
  · subst hn
    rw [if_pos rfl, h, if_pos (List.getElem?_eq_some_iff.mp h).1]
    rfl
  · rw [if_neg hn]

/-- The calls are the given sites of emitted code, in order: each goes through the table and the
key that its descriptor declares and is patched where its fields stand in the image. -/
def AreCalls (descriptors : List Descriptor) (base : Address) (sites : List DirectSite)
    (calls : List Call) : Prop :=
  (sites.map fun d => (declared descriptors d.descriptor,
    (d.place base : Result Error PatchSite))) = calls.map fun c => (some (c.table, c.key), .ok c.site)

/-- Every call is one of the sites. -/
theorem AreCalls.exists_site {descriptors : List Descriptor} {base : Address}
    {sites : List DirectSite} {calls : List Call} (h : AreCalls descriptors base sites calls)
    {c : Call} (hc : c ∈ calls) :
    ∃ d ∈ sites, declared descriptors d.descriptor = some (c.table, c.key) ∧
      (d.place base : Result Error PatchSite) = .ok c.site := by
  have hm := List.mem_map_of_mem (f := fun c : Call => (some (c.table, c.key),
    (.ok c.site : Result Error PatchSite))) hc
  rw [← h] at hm
  obtain ⟨d, hd, heq⟩ := List.mem_map.mp hm
  exact ⟨d, hd, (Prod.mk.inj heq).1, (Prod.mk.inj heq).2⟩

/-- Calls whose sites stand one behind the other share no byte. -/
theorem AreCalls.apart {descriptors : List Descriptor} {base : Address} {sites : List DirectSite}
    {calls : List Call} (h : AreCalls descriptors base sites calls)
    (hsorted : sites.Pairwise fun a b => a.targetOffset + siteSize ≤ b.bypassOffset) :
    calls.Pairwise fun a b => a.site.Apart b.site := by
  induction sites generalizing calls with
  | nil =>
    cases calls with
    | nil => exact .nil
    | cons c calls => cases h
  | cons d rest ih =>
    cases calls with
    | nil => cases h
    | cons c calls =>
      obtain ⟨hbehind, hsorted⟩ := List.pairwise_cons.mp hsorted
      obtain ⟨hhead, htail⟩ := List.cons.inj h
      refine List.pairwise_cons.mpr ⟨fun c' hc' => .inl ?_, ih htail hsorted⟩
      obtain ⟨d', hd', _, hplace'⟩ := AreCalls.exists_site htail hc'
      have h1 := (DirectSite.place_eq_ok (Prod.mk.inj hhead).2).2.2.1
      have h2 := (DirectSite.place_eq_ok hplace').1
      have h3 := hbehind d' hd'
      omega

/-- An installed site shows the slot of its key. -/
theorem Table.shows_install {t t' : Table} {key : UInt32} {site : PatchSite} {image image' : Image}
    {token : Nat} (h : t.install key site image = .ok (t', image', token)) (hp : site.Placed)
    (hbase : image.base.toNat ≤ site.bypass.toNat) (hs : site.Shows image.byteAt none) :
    site.Shows image'.byteAt (t.slots key) := by
  have hfields := hp.fields
  obtain ⟨_, _, _, ⟨hslot, rfl⟩ | ⟨entry, landing, middle, hslot, hl, hm, hlast⟩⟩ :=
    Table.install_eq_ok h
  · rw [hslot]
    exact hs
  · obtain ⟨_, _, _, hnew1, h1⟩ := Table.patchFresh_eq_ok (by omega) hm
    have hmiddle : middle.base.toNat ≤ site.bypass.toNat := by rw [h1.same.base_eq]; exact hbase
    obtain ⟨_, _, _, hnew2, h2⟩ := Table.patchFresh_eq_ok hmiddle hlast
    rw [hslot]
    rw [hp.skip_eq] at hl
    refine ⟨fieldHolds_of_rewrites hmiddle hnew2 h2, landing, hl, ?_⟩
    exact (fieldHolds_of_rewrites (by omega) hnew1 h1).congr fun a ha =>
      h2.byteAt_eq hmiddle fun hb => hp.not_covers hb ha

end TailCall

/-- The fields of a call read the same in two images that agree on them. -/
theorem TailCall.DirectSite.byteAt_eq_of_place {d : DirectSite} {site : PatchSite}
    {image image' : Image} (hp : (d.place image.base : Result Error PatchSite) = .ok site)
    (hbase : image'.base = image.base)
    (hbytes : ∀ i, d.Covers i → image'.bytes[i]? = image.bytes[i]?) {a : Nat}
    (ha : site.Covers a) : image'.byteAt a = image.byteAt a := by
  refine Image.byteAt_congr hbase fun i hi => hbytes i ?_
  rw [hi] at ha
  exact (DirectSite.covers_of_place hp).mp ha

/-- A call goes on showing a slot while the bytes of its fields stay. -/
theorem TailCall.PatchSite.Shows.of_fields {d : DirectSite} {site : PatchSite} {image image' : Image}
    {slot : Option Address} (h : site.Shows image.byteAt slot)
    (hp : (d.place image.base : Result Error PatchSite) = .ok site)
    (hbase : image'.base = image.base)
    (hbytes : ∀ i, d.Covers i → image'.bytes[i]? = image.bytes[i]?) :
    site.Shows image'.byteAt slot :=
  h.congr fun _ ha => DirectSite.byteAt_eq_of_place hp hbase hbytes ha

namespace Installation

/-- Installing one call: what it records, and that the call shows the slot of its key. -/
theorem step_call {s s' : Installation} {d : DirectSite} (h : s.step d = (s', .ok ())) :
    ∃ call : Call, declared s.descriptors d.descriptor = some (call.table, call.key) ∧
      (d.place s.image.base : Result Error PatchSite) = .ok call.site ∧
      (∀ n, declared s'.descriptors n = declared s.descriptors n) ∧
      s'.installed = s.installed ++ [(call.table, call.token)] ∧
      call.table < s.tables.size ∧ Extended s.tables s'.tables [call] ∧
      (call.site.Placed → call.site.Shows s.image.byteAt none → ∀ t, s.tables[call.table]? = some t →
        call.site.Shows s'.image.byteAt (t.slots call.key)) := by
  obtain ⟨site, descriptor, table, table', image', token, hsite, hd, ht, hi, rfl⟩ := step_eq_ok h
  obtain ⟨hb, _, _, _⟩ := DirectSite.place_eq_ok hsite
  refine ⟨⟨descriptor.table, token, descriptor.key, site⟩, by simp [declared, hd], hsite,
    declared_set hd _, rfl, (Array.getElem?_eq_some_iff.mp ht).1, Table.extended_install ht hi, ?_⟩
  intro hp hs t ht'
  rw [ht] at ht'
  cases ht'
  exact Table.shows_install hi hp (by dsimp only; omega) hs

/-- A call that cannot be installed leaves tables and tokens alone. -/
theorem step_eq_error {s s' : Installation} {d : DirectSite} {f : Failure Error}
    (h : s.step d = (s', .error f)) : s'.tables = s.tables ∧ s'.installed = s.installed := by
  unfold step at h
  split at h
  · cases h
    exact ⟨rfl, rfl⟩
  · split at h
    · cases h
      exact ⟨rfl, rfl⟩
    · dsimp only at h
      split at h
      · cases h
        exact ⟨rfl, rfl⟩
      · split at h
        · cases h
          exact ⟨rfl, rfl⟩
        · cases h

/-- What an installation has recorded when it ends, also when it failed on the way: calls one
behind the other, and one for every site when it succeeded. -/
theorem run_extended {s s' : Installation} {sites : List DirectSite} {r : Result Error Unit}
    (h : s.run sites = (s', r)) :
    ∃ calls, s'.installed = s.installed ++ calls.map (fun c => (c.table, c.token)) ∧
      Extended s.tables s'.tables calls ∧ (∀ c ∈ calls, c.table < s.tables.size) ∧
      (r = .ok () → AreCalls s.descriptors s.image.base sites calls) := by
  induction sites generalizing s with
  | nil =>
    cases h
    exact ⟨[], by simp, .refl _, by simp, fun _ => rfl⟩
  | cons d rest ih =>
    rw [run] at h
    split at h
    · rename_i next hn
      obtain ⟨call, hdecl, hplace, hsame, hinst, hlt, hext, _⟩ := step_call hn
      obtain ⟨calls, hcalls, hrest, hlts, hare⟩ := ih h
      obtain ⟨hblock, _⟩ := step_frame hn
      refine ⟨call :: calls, by rw [hcalls, hinst]; simp, hext.trans hrest, ?_, fun hr => ?_⟩
      · intro c hc
        rcases List.mem_cons.mp hc with rfl | hc
        · exact hlt
        · rw [← hext.size_eq]
          exact hlts c hc
      · have hare := hare hr
        unfold AreCalls at hare ⊢
        rw [hblock.base_eq] at hare
        simp only [hsame] at hare
        rw [List.map_cons, List.map_cons, hare, hdecl, hplace]
    · rename_i next f hn
      cases h
      obtain ⟨ht, hi⟩ := step_eq_error hn
      exact ⟨[], by simp [hi], by rw [ht]; exact .refl _, by simp, fun hr => by cases hr⟩

/-- After a successful installation every call shows the slot of its key. -/
theorem run_shows {s done : Installation} {sites : List DirectSite} {calls : List Call} {size : Nat}
    (h : s.run sites = (done, .ok ())) (hare : AreCalls s.descriptors s.image.base sites calls)
    (hfit : ∀ d ∈ sites, d.Fits size)
    (hsorted : sites.Pairwise fun a b => a.targetOffset + siteSize ≤ b.bypassOffset)
    (hfresh : ∀ c ∈ calls, c.site.Shows s.image.byteAt none) :
    ∀ c ∈ calls, ∀ t, s.tables[c.table]? = some t →
      c.site.Shows done.image.byteAt (t.slots c.key) := by
  induction sites generalizing s calls with
  | nil =>
    cases calls with
    | nil =>
      intro c hc
      cases hc
    | cons c calls => cases hare
  | cons d rest ih =>
    cases calls with
    | nil => cases hare
    | cons call calls =>
      obtain ⟨next, hn, hrun⟩ := run_cons h
      obtain ⟨hblock, hframe⟩ := step_frame hn
      obtain ⟨_, hlater⟩ := run_frame hrun
      obtain ⟨hhead, htail⟩ := List.cons.inj hare
      obtain ⟨hdecl, hplace⟩ := Prod.mk.inj hhead
      obtain ⟨made, hdecl', hplace', hsame, _, _, hext, hshow⟩ := step_call hn
      obtain ⟨hbehind, hsorted⟩ := List.pairwise_cons.mp hsorted
      have happ : ∀ d' ∈ rest, ∀ i, d.Covers i → ¬d'.Covers i := by
        intro d' hd' i hi
        have h1 := hbehind d' hd'
        have h2 := (hfit d (by simp)).fields
        have h3 := (hfit d' (by simp [hd'])).fields
        unfold DirectSite.Covers at hi ⊢
        omega
      have hrest : AreCalls next.descriptors next.image.base rest calls := by
        unfold AreCalls
        simp only [hsame, hblock.base_eq]
        exact htail
      intro c hc t ht
      rcases List.mem_cons.mp hc with rfl | hc
      · -- This call is installed now and not touched by the ones behind it.
        obtain ⟨htable, hkey⟩ := Prod.mk.inj (Option.some.inj (hdecl.symm.trans hdecl'))
        have hsite := Except.ok.inj (hplace.symm.trans hplace')
        rw [← htable, ← hkey, ← hsite] at hshow
        have hnow := hshow ((hfit d (by simp)).placed hplace) (hfresh c (by simp)) t ht
        refine hnow.of_fields (by rw [hblock.base_eq]; exact hplace)
          (run_frame hrun).1.base_eq fun i hi => hlater i fun d' hd' => happ d' hd' i hi
      · -- The call is installed later and shows an empty slot until then.
        obtain ⟨t', ht', hext⟩ := hext.table c.table t ht
        rw [← hext.slots_eq]
        refine ih hrun hrest (fun d' hd' => hfit d' (by simp [hd'])) hsorted ?_ c hc t' ht'
        intro u hu
        obtain ⟨d', hd', _, hplace'⟩ := hrest.exists_site hu
        rw [hblock.base_eq] at hplace'
        exact (hfresh u (by simp [hu])).of_fields hplace' hblock.base_eq fun i hi =>
          hframe i fun hc => happ d' hd' i hc hi

end Installation

/-- Releasing tokens keeps the tables. -/
theorem size_release (tables : Array Table) (installed : List (Nat × Nat)) :
    (release tables installed).size = tables.size := by
  induction installed generalizing tables with
  | nil => rfl
  | cons entry rest ih =>
    exact (ih (tables.modify entry.1 fun t => t.untrack entry.2)).trans Array.size_modify

/-- Releasing tokens takes the entries with these tokens out of each table. -/
theorem getElem?_release (tables : Array Table) (installed : List (Nat × Nat)) (n : Nat) :
    (release tables installed)[n]? = tables[n]?.map fun t =>
      { t with tracked := t.tracked.filter fun s => decide ((n, s.token) ∉ installed) } := by
  induction installed generalizing tables with
  | nil =>
    have hall : ∀ t : Table, (t.tracked.filter fun s => decide ((n, s.token) ∉ ([] : List (Nat × Nat))))
        = t.tracked := fun t => List.filter_eq_self.mpr fun x _ => by simp
    simp only [hall]
    exact Option.map_id_apply.symm
  | cons entry rest ih =>
    have hcons : release tables (entry :: rest) =
        release (tables.modify entry.1 fun t => t.untrack entry.2) rest := rfl
    rw [hcons, ih, Array.getElem?_modify]
    cases tables[n]? with
    | none => split <;> rfl
    | some t =>
      by_cases hn : entry.1 = n
      · subst hn
        rw [if_pos rfl]
        have hiff : ∀ token, decide ((entry.1, token) ∉ entry :: rest) =
            (decide ((entry.1, token) ∉ rest) && token != entry.2) := by
          intro token
          by_cases htoken : token = entry.2
          · simp [htoken]
          · have hne : (entry.1, token) ≠ entry := fun heq => htoken (by rw [← heq])
            simp [hne, htoken]
        simp only [Option.map_some, Table.untrack, List.filter_filter, hiff]
      · rw [if_neg hn]
        have hiff : ∀ token, (n, token) ∉ entry :: rest ↔ (n, token) ∉ rest := by
          intro token
          rw [List.mem_cons, not_or]
          exact ⟨fun h => h.2, fun h => ⟨fun heq => hn (by rw [← heq]), h⟩⟩
        simp only [hiff]

/-- The entries of calls have the tokens of the calls. -/
theorem mem_tokens_iff {n token : Nat} {calls : List Call} :
    (n, token) ∈ calls.map (fun c => (c.table, c.token)) ↔
      ∃ x ∈ trackedOn n calls, x.token = token := by
  constructor
  · intro h
    obtain ⟨c, hc, heq⟩ := List.mem_map.mp h
    obtain ⟨rfl, rfl⟩ := Prod.mk.inj heq
    exact ⟨c.tracked, mem_trackedOn.mpr ⟨c, hc, rfl, rfl⟩, rfl⟩
  · rintro ⟨x, hx, rfl⟩
    obtain ⟨c, hc, rfl, rfl⟩ := mem_trackedOn.mp hx
    exact List.mem_map.mpr ⟨c, hc, rfl⟩

/-- Releasing the tokens of calls takes out their entries, whatever stands around them under other
tokens. -/
theorem filter_tokens (n : Nat) (calls : List Call) (front back : List Tracked)
    (hf : ∀ x ∈ trackedOn n calls, ∀ y ∈ front, y.token ≠ x.token)
    (hb : ∀ x ∈ trackedOn n calls, ∀ y ∈ back, y.token ≠ x.token) :
    ((front ++ trackedOn n calls ++ back).filter fun s =>
      decide ((n, s.token) ∉ calls.map fun c => (c.table, c.token))) = front ++ back := by
  have hkeep : ∀ ys : List Tracked, (∀ x ∈ trackedOn n calls, ∀ y ∈ ys, y.token ≠ x.token) →
      (ys.filter fun s => decide ((n, s.token) ∉ calls.map fun c => (c.table, c.token))) = ys := by
    intro ys hys
    refine List.filter_eq_self.mpr fun y hy => decide_eq_true ?_
    rw [mem_tokens_iff]
    rintro ⟨x, hx, heq⟩
    exact hys x hx y hy heq.symm
  have hdrop : ((trackedOn n calls).filter fun s =>
      decide ((n, s.token) ∉ calls.map fun c => (c.table, c.token))) = [] := by
    refine List.filter_eq_nil_iff.mpr fun x hx => ?_
    rw [decide_eq_true_eq, mem_tokens_iff]
    exact fun hn => hn ⟨x, hx, rfl⟩
  rw [List.filter_append, List.filter_append, hkeep front hf, hkeep back hb, hdrop, List.append_nil]

/-- The tokens of a table go up and are used up. -/
structure TailCall.Table.Tokens (t : Table) : Prop where
  /-- The tokens go up. -/
  sorted : t.tracked.Pairwise fun a b => a.token < b.token
  /-- The tokens are used up. -/
  below : ∀ x ∈ t.tracked, x.token < t.nextToken

/-- Further entries keep the order of tokens. -/
theorem TailCall.Table.Tokens.extends {t t' : Table} {new : List Tracked} (h : t.Tokens)
    (he : t.Extends t' new) : t'.Tokens := by
  constructor
  · rw [he.tracked_eq]
    refine List.pairwise_append.mpr ⟨h.sorted, he.sorted, fun x hx y hy => ?_⟩
    exact Nat.lt_of_lt_of_le (h.below x hx) (he.token_ge y hy)
  · intro x hx
    rw [he.tracked_eq] at hx
    rcases List.mem_append.mp hx with hx | hx
    · exact Nat.lt_of_lt_of_le (h.below x hx) he.next_le
    · exact he.token_lt x hx

/-- Releasing what was just installed leaves the tables as they were, up to used tokens. -/
theorem extended_release {tables tables' : Array Table} {calls : List Call}
    (h : Extended tables tables' calls)
    (ht : ∀ (n : Nat) (t : Table), tables[n]? = some t → t.Tokens) :
    Extended tables (release tables' (calls.map fun c => (c.table, c.token))) [] := by
  refine ⟨(size_release _ _).trans h.size_eq, fun n t hn => ?_⟩
  obtain ⟨t', ht', he⟩ := h.table n t hn
  have hfilter := filter_tokens n calls t.tracked []
    (fun x hx y hy => by
      have h1 := (ht n t hn).below y hy
      have h2 := he.token_ge x hx
      omega)
    (fun x hx y hy => by cases hy)
  rw [List.append_nil, List.append_nil, ← he.tracked_eq] at hfilter
  rw [getElem?_release, ht']
  refine ⟨_, rfl, he.maxEntries_eq, he.slots_eq, ?_, ?_, ?_, .nil, he.next_le⟩
  · rw [trackedOn_nil, List.append_nil]
    exact hfilter
  · intro x hx
    cases hx
  · intro x hx
    cases hx

/-- A compilation that failed leaves the tables as they were, up to used tokens. -/
theorem Undone.extended {tables tables' : Array Table} (h : Undone tables tables')
    (ht : ∀ (n : Nat) (t : Table), tables[n]? = some t → t.Tokens) : Extended tables tables' [] := by
  rcases h with rfl | ⟨start, stopped, sites, f, rfl, hnone, hrun, rfl⟩
  · exact .refl _
  · obtain ⟨calls, hinst, hext, _⟩ := Installation.run_extended hrun
    rw [hinst, hnone, List.nil_append]
    exact extended_release hext ht

namespace Emits

variable {source : Source} {tables : Array Table} {e : Emission} {done : Installation}
  {c : CompiledProgram}

/-- The fields of every emitted call have their places in the image. -/
theorem fits (he : Emits source tables e done c) {d : DirectSite} (hd : d ∈ e.out.direct) :
    d.Fits e.written.size := by
  obtain ⟨fresh, hw⟩ := he.written_eq
  exact (direct_of_writeImage he.run_eq hw hd).1

/-- What a compilation recorded: the calls that were emitted, each in its table, and each showing
the slot of its key. -/
theorem exists_calls (he : Emits source tables e done c) :
    ∃ calls, AreCalls source.program.descriptors e.written.base e.out.direct calls ∧
      c.installed = calls.map (fun call => (call.table, call.token)) ∧
      Extended tables done.tables calls ∧ (∀ call ∈ calls, call.table < tables.size) ∧
      ∀ call ∈ calls, ∀ t, tables[call.table]? = some t →
        call.site.Shows c.image.byteAt (t.slots call.key) := by
  obtain ⟨calls, hinst, hext, hlt, hare⟩ := Installation.run_extended he.installed_eq
  have hare := hare rfl
  have hshow := Installation.run_shows he.installed_eq hare (fun d hd => he.fits hd)
    (PassOutput.direct_sorted he.run_eq) (fun call hcall => by
      obtain ⟨fresh, hw⟩ := he.written_eq
      obtain ⟨d, hd, _, hplace⟩ := hare.exists_site hcall
      exact (direct_of_writeImage he.run_eq hw hd).2 _ hplace)
  refine ⟨calls, hare, by rw [he.tokens_eq, hinst]; rfl, hext, hlt, ?_⟩
  rw [he.image_eq]
  exact hshow

end Emits

end NativeForge
