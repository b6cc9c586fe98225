import NativeForge.Proofs.FailedUpdates

/-!
# Requests to patch a site

A patchable site of an executable image is a cell with three kinds of states: it holds nothing, a
call, or a jump. A request names the state it expects and the state it wants, and the answer to it
can be told from the state of the cell alone. Whatever requests come in, at this site and at others
that do not overlap it, the answers are those of the cell, the five bytes encode its state, and no
byte outside the sites that were patched ever changes.
-/

namespace NativeForge

open X64 Target

/-- The first byte of a populated site. -/
def PatchKind.opcode : PatchKind → UInt8
  | .call => 0xE8
  | .jump => 0xE9

/-- What a patchable site holds. -/
inductive SiteState where
  /-- Five bytes that do nothing. -/
  | empty
  /-- A call or a jump to a target. -/
  | populated (kind : PatchKind) (target : Address)
deriving DecidableEq, Repr

/-- The answer of a cell to a request. -/
inductive SiteReply where
  /-- The expected or the wanted target is out of reach of the site. -/
  | outOfRange
  /-- The request was compared with the site. -/
  | answered (outcome : PatchOutcome)
deriving DecidableEq, Repr

namespace SiteState

/-- The state that a request names by a kind and a target. -/
def named (kind : PatchKind) : Option Address → SiteState
  | none => .empty
  | some target => .populated kind target

/-- The way from the end of the site at `ip` to a target, the short way around the address space. -/
def distance (ip target : Address) : Int := (target.toBitVec - (ip.toBitVec + 5#64)).toInt

/-- The target fits a signed 32-bit field. An empty site needs no field. -/
def Fits (ip : Address) : Option Address → Prop
  | none => True
  | some target => -(2 ^ 31) ≤ distance ip target ∧ distance ip target < 2 ^ 31

/-- Whether a target fits can be decided. -/
instance (ip : Address) : (target : Option Address) → Decidable (Fits ip target)
  | none => inferInstanceAs (Decidable True)
  | some _ => inferInstanceAs (Decidable (_ ∧ _))

/-- The cell at `ip` answers a request. -/
def respond (ip : Address) (s : SiteState) (patch : Patch) : SiteReply × SiteState :=
  if ¬(Fits ip patch.old ∧ Fits ip patch.new) then (.outOfRange, s)
  else if s ≠ named patch.kind patch.old then (.answered .mismatch, s)
  else if patch.old = patch.new then (.answered .unchanged, s)
  else (.answered .patched, named patch.kind patch.new)

/-- The cell at `ip` answers requests in order. -/
def respondAll (ip : Address) (s : SiteState) : List Patch → List SiteReply × SiteState
  | [] => ([], s)
  | patch :: rest =>
    let (reply, next) := s.respond ip patch
    let (replies, last) := next.respondAll ip rest
    (reply :: replies, last)

/-- The bytes at `ip` encode a state: the instruction that does nothing, or the opcode and the
distance from the end of the site as a signed 32-bit number. -/
def Encodes (ip : Address) : SiteState → List UInt8 → Prop
  | .empty, data => data = emptyField
  | .populated kind target, data => ∃ rel : Int32, data = kind.opcode :: Bytes.ofInt32 rel ∧
      ((ip.toNat : Int) + 5 + rel.toInt) % 2 ^ 64 = target.toNat

/-- The distance leads to the target, and is at most half of the address space. -/
theorem distance_spec (ip target : Address) :
    ((ip.toNat : Int) + 5 + distance ip target) % 2 ^ 64 = target.toNat ∧
      -(2 ^ 63) ≤ distance ip target ∧ distance ip target < 2 ^ 63 := by
  have hip := ip.toNat_lt
  have hto := target.toNat_lt
  have hfive : (5#64).toNat = 5 := rfl
  have hcond := BitVec.toInt_eq_toNat_cond (target.toBitVec - (ip.toBitVec + 5#64))
  rw [BitVec.toNat_sub, BitVec.toNat_add, hfive, UInt64.toNat_toBitVec, UInt64.toNat_toBitVec]
    at hcond
  unfold distance
  split at hcond <;> omega

/-- A 32-bit distance that leads to a target is the distance to it. -/
theorem distance_eq {ip target : Address} {rel : Int32}
    (h : ((ip.toNat : Int) + 5 + rel.toInt) % 2 ^ 64 = target.toNat) :
    distance ip target = rel.toInt := by
  have hlt := rel.toInt_lt
  have hle := rel.le_toInt
  have hspec := distance_spec ip target
  omega

/-- A target fits exactly when some 32-bit distance leads to it. -/
theorem fits_some_iff {ip target : Address} :
    Fits ip (some target) ↔
      ∃ rel : Int32, ((ip.toNat : Int) + 5 + rel.toInt) % 2 ^ 64 = target.toNat := by
  constructor
  · rintro ⟨hle, hlt⟩
    refine ⟨Int32.ofInt (distance ip target), ?_⟩
    rw [Int32.toInt_ofInt_of_le hle hlt]
    exact (distance_spec ip target).1
  · rintro ⟨rel, hrel⟩
    have hlt := rel.toInt_lt
    have hle := rel.le_toInt
    rw [Fits, distance_eq hrel]
    omega

namespace Encodes

variable {ip : Address} {s s' : SiteState} {data data' : List UInt8}

/-- A site has five bytes. -/
theorem length_eq (h : s.Encodes ip data) : data.length = siteSize := by
  cases s with
  | empty =>
    obtain rfl : data = emptyField := h
    rfl
  | populated kind target =>
    obtain ⟨rel, rfl, _⟩ := h
    rw [List.length_cons, ofInt32_length]
    rfl

/-- A state has one encoding. -/
theorem data_unique (h : s.Encodes ip data) (h' : s.Encodes ip data') : data = data' := by
  cases s with
  | empty => exact Eq.trans h (Eq.symm h')
  | populated kind target =>
    obtain ⟨rel, rfl, hrel⟩ := h
    obtain ⟨rel', rfl, hrel'⟩ := h'
    have heq : rel = rel' := Int32.toInt_inj.mp ((distance_eq hrel).symm.trans (distance_eq hrel'))
    rw [heq]

/-- No call or jump looks like an empty site. -/
theorem not_emptyField {kind : PatchKind} {target : Address} :
    ¬(populated kind target).Encodes ip emptyField := by
  rintro ⟨rel, hdata, _⟩
  have hopcode := (List.cons.inj hdata).1
  cases kind with
  | call => exact absurd hopcode (by decide)
  | jump => exact absurd hopcode (by decide)

/-- The bytes tell the state: whether the site is populated, the kind and the target. -/
theorem state_unique (h : s.Encodes ip data) (h' : s'.Encodes ip data) : s = s' := by
  cases s with
  | empty =>
    obtain rfl : data = emptyField := h
    cases s' with
    | empty => rfl
    | populated kind' target' => exact absurd h' not_emptyField
  | populated kind target =>
    cases s' with
    | empty =>
      obtain rfl : data = emptyField := h'
      exact absurd h not_emptyField
    | populated kind' target' =>
      obtain ⟨rel, rfl, hto⟩ := h
      obtain ⟨rel', hdata, hto'⟩ := h'
      obtain ⟨hopcode, hrel⟩ := List.cons.inj hdata
      obtain rfl := ofInt32_injective hrel
      have htarget : target = target' := UInt64.toNat_inj.mp (by omega)
      have hkind : kind = kind' := by
        cases kind <;> cases kind' <;> first | rfl | exact absurd hopcode (by decide)
      rw [htarget, hkind]

end Encodes

/-- Requests of one kind name the same state only for the same target. -/
theorem named_injective {kind : PatchKind} {old new : Option Address}
    (h : named kind old = named kind new) : old = new := by
  cases old with
  | none =>
    cases new with
    | none => rfl
    | some target => cases h
  | some target =>
    cases new with
    | none => cases h
    | some target' =>
      cases h
      rfl

end SiteState

open SiteState

/-- The end of the site at `ip` or the distance to the target is no signed 64-bit number. -/
def SiteState.Overflows (ip target : Address) : Prop :=
  ¬(-(2 ^ 63) ≤ ip.signed + 5 ∧ ip.signed + 5 < 2 ^ 63 ∧
    -(2 ^ 63) ≤ target.signed - (ip.signed + 5) ∧ target.signed - (ip.signed + 5) < 2 ^ 63)

/-- A displacement crashes only on overflow. -/
theorem overflows_of_crash {ip target : Address}
    (h : siteDisplacement ip target = .error .crash) : Overflows ip target := by
  rintro ⟨h1, h2, h3, h4⟩
  have hend : (signedWord64 (ip.signed + siteSize) : Result Error Int) = .ok (ip.signed + 5) :=
    if_pos ⟨h1, h2⟩
  have hway : (signedWord64 (target.signed - (ip.signed + 5)) : Result Error Int) =
      .ok (target.signed - (ip.signed + 5)) := if_pos ⟨h3, h4⟩
  unfold siteDisplacement at h
  rw [hend] at h
  simp only [bind, Except.bind, hway] at h
  split at h <;> cases h

/-- The bytes that a request names encode the state that it names, unless the target does not fit
or the address arithmetic overflows. -/
theorem siteBytes_encodes (ip : Address) (kind : PatchKind) (target : Option Address) :
    (∃ data, siteBytes ip kind target = .ok data ∧ (named kind target).Encodes ip data ∧
        Fits ip target) ∨
      (siteBytes ip kind target = .error .crash ∧ ∃ dest, target = some dest ∧ Overflows ip dest) ∨
      ¬Fits ip target ∧ ∃ way, siteBytes ip kind target = outOfRange .patchTarget way := by
  cases target with
  | none => exact .inl ⟨_, rfl, rfl, trivial⟩
  | some dest =>
    have hbytes : siteBytes ip kind (some dest) =
        (siteDisplacement ip dest).map fun rel => kind.opcode :: Bytes.ofInt32 rel := by
      unfold siteBytes siteInstr
      dsimp only
      cases siteDisplacement ip dest with
      | error failure => rfl
      | ok rel => cases kind <;> rfl
    rw [hbytes]
    rcases siteDisplacement_cases ip dest with ⟨rel, h, hrel⟩ | h | ⟨way, hfar, h⟩
    · rw [h]
      exact .inl ⟨_, rfl, ⟨rel, rfl, hrel⟩, fits_some_iff.mpr ⟨rel, hrel⟩⟩
    · have hover := overflows_of_crash h
      rw [h]
      exact .inr (.inl ⟨rfl, dest, rfl, hover⟩)
    · rw [h]
      refine .inr (.inr ⟨fun hfits => hfar ?_, way, rfl⟩)
      obtain ⟨rel, hrel⟩ := fits_some_iff.mp hfits
      exact ⟨_, rel, rfl, hrel⟩

/-- A request to patch the site at an offset. -/
structure SiteRequest where
  /-- Where the site starts. -/
  offset : Nat
  /-- What is expected and what is wanted. -/
  patch : Patch
deriving DecidableEq, Repr

/-- The site of the request covers an offset. -/
def SiteRequest.Covers (r : SiteRequest) (i : Nat) : Prop :=
  r.offset ≤ i ∧ i < r.offset + siteSize

/-- The site of the request does not overlap the site at an offset. -/
def SiteRequest.Apart (r : SiteRequest) (offset : Nat) : Prop :=
  r.offset + siteSize ≤ offset ∨ offset + siteSize ≤ r.offset

/-- The address arithmetic of the request overflows, for a site at `ip`. -/
def SiteRequest.Overflows (r : SiteRequest) (ip : Address) : Prop :=
  2 ^ 64 ≤ r.offset + siteSize ∨
    ∃ target, (r.patch.old = some target ∨ r.patch.new = some target) ∧
      SiteState.Overflows ip target

/-- A request and the answer to it. -/
structure Exchange where
  /-- The request. -/
  request : SiteRequest
  /-- The answer. -/
  answer : Result Error PatchOutcome

/-- The answer in the words of a cell, if a cell could give it. -/
def Exchange.reply? (x : Exchange) : Option SiteReply :=
  match x.answer with
  | .ok outcome => some (.answered outcome)
  | .error (.reported (.outOfRange .patchTarget _)) => some .outOfRange
  | .error _ => none

/-- The request was not answered at all. -/
def Exchange.crashed (x : Exchange) : Bool :=
  match x.answer with
  | .error .crash => true
  | _ => false

/-- The exchanges at the site with an offset, without the requests that crashed. -/
def answeredAt (offset : Nat) (log : List Exchange) : List Exchange :=
  log.filter fun x => x.request.offset == offset && !x.crashed

namespace Image

/-- The site at an offset, which has the address `ip`, is in a state. -/
def InState (image : Image) (offset : Nat) (ip : Address) (s : SiteState) : Prop :=
  ∃ data, s.Encodes ip data ∧ image.HoldsAt offset data

/-- Answer a request to patch an executable image, while the system grants every change of the
protection. -/
def serve (image : Image) (r : SiteRequest) : Exchange × Image :=
  let (next, answer) := image.patchInstalled r.offset r.patch
  (⟨r, answer⟩, next)

/-- Answer requests in order. -/
def serveAll (image : Image) : List SiteRequest → List Exchange × Image
  | [] => ([], image)
  | r :: rest =>
    let (x, next) := image.serve r
    let (log, last) := next.serveAll rest
    (x :: log, last)

variable {image : Image} {offset : Nat} {ip : Address} {s : SiteState}

/-- Changes outside a site leave it in its state. -/
theorem InState.congr {image' : Image} (h : image.InState offset ip s)
    (hsame : ∀ i, offset ≤ i → i < offset + siteSize → image'.bytes[i]? = image.bytes[i]?) :
    image'.InState offset ip s := by
  obtain ⟨data, hdata, hholds⟩ := h
  have hlength := hdata.length_eq
  exact ⟨data, hdata, hholds.congr fun i h1 h2 => hsame i h1 (by omega)⟩

/-- An answer other than "patched" leaves the image alone, and a patch changes its five bytes
only. -/
theorem serve_frame (image : Image) (r : SiteRequest) :
    (image.serve r).1.request = r ∧ SameBlock (image.serve r).2 image ∧
      ((image.serve r).1.answer ≠ .ok .patched → (image.serve r).2 = image) ∧
      ∀ i, ¬r.Covers i → (image.serve r).2.bytes[i]? = image.bytes[i]? := by
  obtain ⟨next, answer, h⟩ : ∃ next answer,
      image.patchInstalled r.offset r.patch = (next, answer) := ⟨_, _, rfl⟩
  unfold serve
  rw [h]
  refine ⟨rfl, ?_⟩
  dsimp only
  have hsame : next = image → SameBlock next image ∧ (answer ≠ .ok .patched → next = image) ∧
      ∀ i, ¬r.Covers i → next.bytes[i]? = image.bytes[i]? := by
    rintro rfl
    exact ⟨.refl _, fun _ => rfl, fun _ _ => rfl⟩
  unfold patchInstalled at h
  split at h
  · exact hsame (Prod.mk.inj h).1.symm
  split at h
  · exact hsame (Prod.mk.inj h).1.symm
  split at h
  · exact hsame (Prod.mk.inj h).1.symm
  unfold patchLive at h
  split at h
  · exact hsame (Prod.mk.inj h).1.symm
  · rename_i new hj
    cases h
    obtain hm | ⟨ip, old, _, _, hnew, hsize, _⟩ := judge_eq_ok hj
    · cases hm
    have hlength := siteBytes_length hnew
    refine ⟨sameBlock_poke _ _ _, fun hne => absurd rfl hne, fun i hi => ?_⟩
    rw [getElem?_poke _ _ _ (by omega), if_neg (by rw [hlength]; exact hi)]
  · exact hsame (Prod.mk.inj h).1.symm

/-- A request at a site of an executable image is a patch of running code, unless the end of the
site overflows. -/
theorem serve_inside (hexec : image.executable = true) (hinside : offset + siteSize ≤ image.size)
    (hstop : offset + siteSize < 2 ^ 64) (patch : Patch) :
    image.serve ⟨offset, patch⟩ =
      (⟨⟨offset, patch⟩, (image.patchLive offset patch).2⟩, (image.patchLive offset patch).1) := by
  unfold serve patchInstalled
  dsimp only
  rw [if_neg (by simp [hexec]), word64_eq_ok.mpr ⟨hstop, rfl⟩]
  dsimp only
  rw [if_neg (by omega)]

/-- A request at a site in a given state is answered as the cell answers it, and leaves the site in
the state that the cell goes to, unless the address arithmetic overflows. -/
theorem serve_answers (hexec : image.executable = true) (hinside : offset + siteSize ≤ image.size)
    (hip : ip.toNat = image.base.toNat + offset) (hstate : image.InState offset ip s)
    (patch : Patch) :
    ((image.serve ⟨offset, patch⟩).1.crashed = true ∧ SiteRequest.Overflows ⟨offset, patch⟩ ip) ∨
      (image.serve ⟨offset, patch⟩).1.crashed = false ∧
      (image.serve ⟨offset, patch⟩).1.reply? = some (s.respond ip patch).1 ∧
        (image.serve ⟨offset, patch⟩).2.InState offset ip (s.respond ip patch).2 := by
  obtain ⟨data, hdata, hholds⟩ := hstate
  have hlength := hdata.length_eq
  have hread : (image.bytes.extract offset (offset + siteSize)).toList = data := by
    rw [← hlength] at hinside ⊢
    exact (holdsAt_iff_extract hinside).mp hholds
  by_cases hstop : offset + siteSize < 2 ^ 64
  · rw [serve_inside hexec hinside hstop]
    unfold patchLive judge read respond
    rw [plus_eq_ok.mpr hip, if_pos hinside]
    dsimp only [bind, Except.bind]
    rw [hread]
    rcases siteBytes_encodes ip patch.kind patch.old with
      ⟨old, hold, hoe, hof⟩ | ⟨hold, dest, hdest, hover⟩ | ⟨hof, way, hold⟩
    · rw [hold]
      rcases siteBytes_encodes ip patch.kind patch.new with
        ⟨new, hnew, hne, hnf⟩ | ⟨hnew, dest, hdest, hover⟩ | ⟨hnf, way, hnew⟩
      · rw [hnew, if_neg (not_not.mpr ⟨hof, hnf⟩)]
        dsimp only
        by_cases hmatch : s = named patch.kind patch.old
        · subst hmatch
          obtain rfl := hdata.data_unique hoe
          rw [if_neg (not_not.mpr rfl), if_neg (not_not.mpr rfl)]
          by_cases hsame : patch.old = patch.new
          · rw [hsame] at hdata
            rw [if_pos (hdata.data_unique hne), if_pos hsame]
            exact .inr ⟨rfl, rfl, data, hoe, hholds⟩
          · have hdiffer : data ≠ new := fun heq =>
              hsame (named_injective (hdata.state_unique (heq ▸ hne)))
            rw [if_neg hdiffer, if_neg hsame]
            exact .inr ⟨rfl, rfl, new, hne,
              (rewrites_poke (siteBytes_length hnew) hinside hholds).after⟩
        · have hdiffer : data ≠ old := fun heq => hmatch (hdata.state_unique (heq ▸ hoe))
          rw [if_pos hdiffer, if_pos hmatch]
          exact .inr ⟨rfl, rfl, data, hdata, hholds⟩
      · rw [hnew]
        exact .inl ⟨rfl, .inr ⟨dest, .inr hdest, hover⟩⟩
      · rw [hnew, if_pos (fun h => hnf h.2)]
        exact .inr ⟨rfl, rfl, data, hdata, hholds⟩
    · rw [hold]
      exact .inl ⟨rfl, .inr ⟨dest, .inl hdest, hover⟩⟩
    · rw [hold, if_pos (fun h => hof h.1)]
      exact .inr ⟨rfl, rfl, data, hdata, hholds⟩
  · have hcrash : (word64 (offset + siteSize) : Result Error Nat) = .error .crash := if_neg hstop
    unfold serve patchInstalled
    rw [if_neg (by simp [hexec]), hcrash]
    exact .inl ⟨rfl, .inl (Nat.le_of_not_lt hstop)⟩

/-- Serving requests answers each of them and changes nothing outside the sites that it patches. -/
theorem serveAll_frame (image : Image) (requests : List SiteRequest) :
    (image.serveAll requests).1.map Exchange.request = requests ∧
      SameBlock (image.serveAll requests).2 image ∧
      ∀ i, (∀ x ∈ (image.serveAll requests).1, x.answer = .ok .patched → ¬x.request.Covers i) →
        (image.serveAll requests).2.bytes[i]? = image.bytes[i]? := by
  induction requests generalizing image with
  | nil => exact ⟨rfl, .refl _, fun _ _ => rfl⟩
  | cons r rest ih =>
    obtain ⟨hrequest, hblock, hkept, hbytes⟩ := image.serve_frame r
    obtain ⟨hrequests, hblocks, hall⟩ := ih (image.serve r).2
    rw [serveAll]
    refine ⟨?_, hblocks.trans hblock, fun i hi => ?_⟩
    · rw [List.map_cons, hrequest, hrequests]
    · have hrest := hall i fun x hx => hi x (List.mem_cons_of_mem _ hx)
      by_cases hpatched : (image.serve r).1.answer = .ok .patched
      · have hout := hi _ List.mem_cons_self hpatched
        rw [hrequest] at hout
        exact hrest.trans (hbytes i hout)
      · exact hrest.trans (by rw [hkept hpatched])

/-- The answers at a site are those of its cell, and the site ends in the state of the cell. -/
theorem serveAll_answers (hexec : image.executable = true)
    (hinside : offset + siteSize ≤ image.size) (hip : ip.toNat = image.base.toNat + offset)
    (hstate : image.InState offset ip s) (requests : List SiteRequest)
    (hsites : ∀ r ∈ requests, r.offset = offset ∨ r.Apart offset) :
    (∀ x ∈ (image.serveAll requests).1, x.request.offset = offset → x.crashed = true →
        x.request.Overflows ip) ∧
      (answeredAt offset (image.serveAll requests).1).map Exchange.reply? =
        (s.respondAll ip ((answeredAt offset (image.serveAll requests).1).map
          fun x => x.request.patch)).1.map some ∧
      (image.serveAll requests).2.InState offset ip
        (s.respondAll ip ((answeredAt offset (image.serveAll requests).1).map
          fun x => x.request.patch)).2 := by
  induction requests generalizing image s with
  | nil => exact ⟨fun _ hx => absurd hx List.not_mem_nil, rfl, hstate⟩
  | cons r rest ih =>
    obtain ⟨hrequest, hblock, hkept, hbytes⟩ := image.serve_frame r
    have hrest : ∀ r ∈ rest, r.offset = offset ∨ r.Apart offset :=
      fun r hr => hsites r (List.mem_cons_of_mem _ hr)
    -- The image that the remaining requests find is the same block.
    have hexec' := hblock.executable_eq.trans hexec
    have hinside' : offset + siteSize ≤ (image.serve r).2.size := hblock.size_eq ▸ hinside
    have hip' : ip.toNat = (image.serve r).2.base.toNat + offset := hblock.base_eq ▸ hip
    have hskip : ∀ log, ((image.serve r).1.request.offset == offset &&
        !(image.serve r).1.crashed) = false →
        answeredAt offset ((image.serve r).1 :: log) = answeredAt offset log :=
      fun log hfalse => List.filter_cons_of_neg (by simp [hfalse])
    rw [serveAll]
    dsimp only
    rcases hsites r List.mem_cons_self with rfl | hapart
    · rcases serve_answers hexec hinside hip hstate r.patch with
        ⟨hcrash, hover⟩ | ⟨hcrash, hreply, hnext⟩
      · have hsame : (image.serve r).2 = image := hkept fun hpatched => by
          rw [Exchange.crashed, hpatched] at hcrash
          cases hcrash
        obtain ⟨hcrashes, hanswers⟩ :=
          ih hexec' hinside' hip' (by rw [hsame]; exact hstate) hrest
        rw [hskip _ (by rw [hcrash]; simp)]
        refine ⟨List.forall_mem_cons.mpr ⟨fun _ _ => ?_, hcrashes⟩, hanswers⟩
        rw [hrequest]
        exact hover
      · have hkeep : ∀ log, answeredAt r.offset ((image.serve r).1 :: log) =
            (image.serve r).1 :: answeredAt r.offset log :=
          fun log => List.filter_cons_of_pos (by rw [hrequest, hcrash]; simp)
        obtain ⟨hcrashes, hreplies, hlast⟩ := ih hexec' hinside' hip' hnext hrest
        rw [hkeep, List.map_cons, List.map_cons, hrequest, respondAll]
        refine ⟨List.forall_mem_cons.mpr ⟨fun _ h => ?_, hcrashes⟩, ?_, hlast⟩
        · rw [hcrash] at h
          cases h
        · rw [hreply, hreplies]
          rfl
    · have hother : r.offset ≠ offset := by
        intro heq
        have hsize : siteSize = 5 := rfl
        unfold SiteRequest.Apart at hapart
        omega
      have hstate' := hstate.congr fun i h1 h2 => hbytes i (by
        unfold SiteRequest.Covers
        unfold SiteRequest.Apart at hapart
        omega)
      obtain ⟨hcrashes, hanswers⟩ := ih hexec' hinside' hip' hstate' hrest
      rw [hskip _ (by rw [hrequest]; simp [hother])]
      exact ⟨List.forall_mem_cons.mpr ⟨fun h => absurd (hrequest ▸ h) hother, hcrashes⟩, hanswers⟩

end Image

/-- Requests at a site of an executable image are answered as an abstract cell answers them, one
after the other, and the five bytes end up encoding the state of the cell, unless address arithmetic
overflows. No byte changes except in a site that was patched. -/
theorem requests_refine_cell {image : Image} {offset : Nat} {ip : Address} {s : SiteState}
    (hexec : image.executable = true) (hinside : offset + siteSize ≤ image.size)
    (hip : ip.toNat = image.base.toNat + offset) (hstate : image.InState offset ip s)
    (requests : List SiteRequest)
    (hsites : ∀ r ∈ requests, r.offset = offset ∨ r.Apart offset) :
    (image.serveAll requests).1.map Exchange.request = requests ∧
    (∀ x ∈ (image.serveAll requests).1, x.request.offset = offset → x.crashed = true →
      x.request.Overflows ip) ∧
    (answeredAt offset (image.serveAll requests).1).map Exchange.reply? =
      (s.respondAll ip ((answeredAt offset (image.serveAll requests).1).map
        fun x => x.request.patch)).1.map some ∧
    (image.serveAll requests).2.InState offset ip
      (s.respondAll ip ((answeredAt offset (image.serveAll requests).1).map
        fun x => x.request.patch)).2 ∧
    (∀ i, (∀ x ∈ (image.serveAll requests).1, x.answer = .ok .patched → ¬x.request.Covers i) →
      (image.serveAll requests).2.bytes[i]? = image.bytes[i]?) ∧
    (image.serveAll requests).2.SameBlock image ∧
    (∀ start data, (image.serveAll requests).2.write start data = report .protectionFailed) ∧
    ∀ byte, (image.serveAll requests).2.fill byte = report .protectionFailed := by
  obtain ⟨hrequests, hblock, hbytes⟩ := image.serveAll_frame requests
  obtain ⟨hcrashes, hreplies, hlast⟩ :=
    Image.serveAll_answers hexec hinside hip hstate requests hsites
  have hexec' := hblock.executable_eq.trans hexec
  exact ⟨hrequests, hcrashes, hreplies, hlast, hbytes, hblock, fun _ _ => if_pos hexec',
    fun _ => if_pos hexec'⟩

/-- An executable image with an empty site at 0, a jump at 5 to the site at 0, and a return. -/
def twoSiteImage : Image where
  base := 0x80000000
  bytes := #[0x0F, 0x1F, 0x44, 0x00, 0x00, 0xE9, 0xF6, 0xFF, 0xFF, 0xFF, 0xC3]
  executable := true

/-- Requests at both sites: the one at 0 is populated, asked for with the wrong kind and with a
target that is one byte too far, left as it is, and emptied. -/
def mixedRequests : List SiteRequest :=
  [⟨0, ⟨.call, none, some 0x100000004⟩⟩, ⟨0, ⟨.jump, some 0x100000004, none⟩⟩,
    ⟨5, ⟨.jump, some 0x80000000, some 0x8000000A⟩⟩,
    ⟨0, ⟨.call, some 0x100000004, some 0x100000005⟩⟩,
    ⟨0, ⟨.call, some 0x100000004, some 0x100000004⟩⟩, ⟨0, ⟨.call, some 0x100000004, none⟩⟩,
    ⟨0, ⟨.call, none, some 0x8000000000000000⟩⟩]

/-- The site at 0 goes through all answers of a cell and ends up empty; the site at 5 is patched
meanwhile. The last request overflows the address arithmetic, and the cell does not see it. -/
theorem requests_refine_twoSiteImage :
    (answeredAt 0 (twoSiteImage.serveAll mixedRequests).1).map Exchange.reply? =
      [some (.answered .patched), some (.answered .mismatch), some .outOfRange,
        some (.answered .unchanged), some (.answered .patched)] ∧
    (twoSiteImage.serveAll mixedRequests).2.InState 0 0x80000000 .empty ∧
    (twoSiteImage.serveAll mixedRequests).2.bytes[10]? = some 0xC3 ∧
    (twoSiteImage.serveAll mixedRequests).2.fill 0 = report .protectionFailed := by
  have hstate : twoSiteImage.InState 0 0x80000000 .empty := by
    refine ⟨emptyField, rfl, ?_⟩
    unfold Image.HoldsAt
    decide
  have hsites : ∀ r ∈ mixedRequests, r.offset = 0 ∨ r.Apart 0 := by
    unfold SiteRequest.Apart
    decide
  obtain ⟨_, _, hreplies, hlast, hbytes, _, _, hfill⟩ :=
    requests_refine_cell rfl (by decide) rfl hstate mixedRequests hsites
  have hpatches : (answeredAt 0 (twoSiteImage.serveAll mixedRequests).1).map
      (fun x => x.request.patch) = [mixedRequests[0].patch, mixedRequests[1].patch,
        mixedRequests[3].patch, mixedRequests[4].patch, mixedRequests[5].patch] := by
    decide +kernel
  rw [hpatches] at hreplies hlast
  refine ⟨hreplies.trans (by decide +kernel), ?_, ?_, hfill 0⟩
  · have hempty : (SiteState.empty.respondAll 0x80000000 [mixedRequests[0].patch,
        mixedRequests[1].patch, mixedRequests[3].patch, mixedRequests[4].patch,
        mixedRequests[5].patch]).2 = .empty := by
      decide +kernel
    rw [hempty] at hlast
    exact hlast
  · refine (hbytes 10 ?_).trans rfl
    intro x hx _ hcovers
    have hrequest := List.mem_map_of_mem (f := Exchange.request) hx
    rw [(twoSiteImage.serveAll_frame mixedRequests).1] at hrequest
    have hoffsets : ∀ r ∈ mixedRequests, ¬r.Covers 10 := by
      unfold SiteRequest.Covers
      decide
    exact hoffsets _ hrequest hcovers

end NativeForge
