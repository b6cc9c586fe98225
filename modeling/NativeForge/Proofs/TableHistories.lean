import Mathlib.Data.List.Pairwise
import NativeForge.Proofs.InstalledCalls

/-!
# Histories of tail-call tables

Programs are compiled, finished later or dropped, and slots of tables are set and cleared, in any
order. Whatever the history, the code of the live programs agrees with the tables: the tracked
sites are the direct tail calls of the live programs, each shows the slot of its key, and outside
their fields the images are what was emitted. The proof keeps a ledger of the live programs with
what their compilations emitted and recorded, and shows that every action keeps it true.
-/

namespace NativeForge

open X64 Virtual Target TailCall

/-- A live program: where its image is mapped, and what it was compiled from. -/
structure Resident where
  /-- Number of the image. -/
  number : Nat
  /-- What the final pass worked from. -/
  source : Source
  /-- The program as it was compiled. -/
  compiled : CompiledProgram

/-- The mapped images, the tables, and the programs that are live or wait to be finished. -/
structure World where
  /-- The images of the live programs. -/
  space : Space := {}
  /-- The tail-call tables. -/
  tables : Array Table := #[]
  /-- The live programs, the latest last. -/
  live : List Resident := []
  /-- The programs that wait, the latest last. -/
  waiting : List PendingProgram := []

/-- What can be done with tables and programs. -/
inductive Action where
  /-- Make a table. -/
  | table (maxEntries : UInt32)
  /-- Compile a program into memory from an allocator. -/
  | compile (config : Config) (program : Program) (resolve : CallSite → Option Address)
      (alloc : Nat → Result MemoryError Image)
  /-- Finish a program that waits. -/
  | finish (number : Nat) (program : Program) (resolve : CallSite → Option Address)
  /-- Set or clear a slot of a table. The system answers to its patches as listed, and grants the
  others. -/
  | update (table : Nat) (key : UInt32) (entry : Option Address) (access : List Access := [])
  /-- Drop a live program. -/
  | drop (number : Nat)

namespace World

/-- The memory of the image is not in use. -/
def Free (w : World) (image : Image) : Prop :=
  (∀ slot ∈ w.space.images, ∀ mapped ∈ slot, mapped.Apart image) ∧
    ∀ p ∈ w.waiting, p.image.Apart image

/-- Whether memory is in use can be decided. -/
instance (w : World) (image : Image) : Decidable (w.Free image) :=
  inferInstanceAs (Decidable (_ ∧ _))

/-- The world after a compilation. An allocator never hands out memory that is in use. -/
def settle (w : World) (source : Source) (c : Compilation) : Option World :=
  match c.outcome with
  | .error _ => some { w with tables := c.tables }
  | .ok (.pending p) =>
    if w.Free p.image then some { w with tables := c.tables, waiting := w.waiting ++ [p] } else none
  | .ok (.compiled program) =>
    if w.Free program.image then
      some { w with
        space := w.space.push (some program.image)
        tables := c.tables
        live := w.live ++ [⟨w.space.images.size, source, program⟩] }
    else none

/-- The world after an action, if the action is possible and an update was carried out. -/
def step (w : World) : Action → Option World
  | .table maxEntries => some { w with tables := w.tables.push { maxEntries } }
  | .compile config program resolve alloc =>
    w.settle (sourceOf config program resolve) (compile config program resolve w.tables alloc)
  | .finish number program resolve =>
    match w.waiting[number]? with
    | none => none
    | some p =>
      { w with waiting := w.waiting.eraseIdx number }.settle
        ⟨p.config, program, p.frame, resolve⟩ (p.finish program resolve w.tables none)
  | .update number key entry access =>
    match w.tables[number]? with
    | none => none
    | some table =>
      match table.update w.space key entry access with
      | (_, .error _) => none
      | (space, .ok table) => some { w with space, tables := w.tables.setIfInBounds number table }
  | .drop number =>
    match w.live[number]? with
    | none => none
    | some r => some { w with
        space := w.space.set r.number none
        tables := release w.tables r.compiled.installed
        live := w.live.eraseIdx number }

/-- The world after actions in order. -/
def run (w : World) : List Action → Option World
  | [] => some w
  | action :: rest => (w.step action).bind fun w => w.run rest

end World

/-- A live program with what its compilation emitted and recorded. -/
structure Entry where
  /-- The program. -/
  resident : Resident
  /-- What was emitted. -/
  emission : Emission
  /-- The direct tail calls as they were recorded. -/
  calls : List Call

/-- The program of an entry stands in memory as it was emitted, up to the fields of its direct tail
calls. -/
structure Entry.Stands (x : Entry) (space : Space) : Prop where
  /-- The program was emitted. -/
  emits : ∃ tables done, Emits x.resident.source tables x.emission done x.resident.compiled
  /-- The calls are the emitted ones. -/
  areCalls : AreCalls x.resident.source.program.descriptors x.emission.written.base
    x.emission.out.direct x.calls
  /-- The program holds the tokens of its calls. -/
  tokens_eq : x.resident.compiled.installed = x.calls.map fun c => (c.table, c.token)
  /-- The image is mapped, and outside the fields of the calls it holds what was emitted. -/
  mapped : ∃ image, space.get? x.resident.number = some image ∧
    image.base = x.emission.written.base ∧ image.size = x.emission.written.size ∧
    ∀ i, (∀ d ∈ x.emission.out.direct, ¬d.Covers i) →
      image.bytes[i]? = x.emission.written.bytes[i]?

namespace Entry.Stands

variable {x y : Entry} {space : Space} {c : Call}

/-- The fields of a call are in their places. -/
theorem placed (h : x.Stands space) (hc : c ∈ x.calls) : c.site.Placed := by
  obtain ⟨_, _, he⟩ := h.emits
  obtain ⟨d, hd, _, hplace⟩ := h.areCalls.exists_site hc
  exact (he.fits hd).placed hplace

/-- The fields of a call lie in the image of its program. -/
theorem inside (h : x.Stands space) (hc : c ∈ x.calls) {image : Image}
    (hg : space.get? x.resident.number = some image) :
    image.base.toNat ≤ c.site.bypass.toNat ∧
      c.site.resume.toNat ≤ image.base.toNat + image.size := by
  obtain ⟨_, _, he⟩ := h.emits
  obtain ⟨d, hd, _, hplace⟩ := h.areCalls.exists_site hc
  obtain ⟨image', hg', hbase, hsize, _⟩ := h.mapped
  rw [hg] at hg'
  cases hg'
  obtain ⟨hb, _, hr, _⟩ := DirectSite.place_eq_ok hplace
  have hinside := (he.fits hd).inside
  rw [hbase, hsize]
  omega

/-- Two calls of one program share no byte. -/
theorem apart (h : x.Stands space) {c' : Call} (hc : c ∈ x.calls) (hc' : c' ∈ x.calls)
    (hne : c ≠ c') : c.site.Apart c'.site := by
  obtain ⟨_, _, he⟩ := h.emits
  have hpair := h.areCalls.apart (PassOutput.direct_sorted he.run_eq)
  have hsymm : Std.Symm fun a b : Call => a.site.Apart b.site := ⟨fun _ _ hab => Or.symm hab⟩
  exact hpair.forall hc hc' hne

/-- A program stands in every space that maps its image with the same bytes outside its fields. -/
theorem congr (h : x.Stands space) {space' : Space}
    (hs : ∀ image, space.get? x.resident.number = some image →
      ∃ image', space'.get? x.resident.number = some image' ∧ image'.base = image.base ∧
        image'.size = image.size ∧ ∀ i, (∀ d ∈ x.emission.out.direct, ¬d.Covers i) →
          image'.bytes[i]? = image.bytes[i]?) : x.Stands space' := by
  obtain ⟨image, hg, hbase, hsize, hbytes⟩ := h.mapped
  obtain ⟨image', hg', hbase', hsize', hbytes'⟩ := hs image hg
  exact ⟨h.emits, h.areCalls, h.tokens_eq, image', hg', hbase'.trans hbase, hsize'.trans hsize,
    fun i hi => (hbytes' i hi).trans (hbytes i hi)⟩

/-- A program stands in every space that maps its image. -/
theorem of_get?_eq (h : x.Stands space) {space' : Space}
    (hg : space'.get? x.resident.number = space.get? x.resident.number) : x.Stands space' :=
  h.congr fun image hi => ⟨image, hg.trans hi, rfl, rfl, fun _ _ => rfl⟩

/-- The fields of a call read the same in the space and in the image of its program. -/
theorem byteAt_image (h : x.Stands space) (hs : space.Separate) {image : Image}
    (hg : space.get? x.resident.number = some image) (hc : c ∈ x.calls) {a : Nat}
    (ha : c.site.Covers a) : space.byteAt a = image.byteAt a := by
  obtain ⟨h1, h2⟩ := h.inside hc hg
  have h3 := (h.placed hc).fields
  have h4 := (h.placed hc).resume_eq
  unfold PatchSite.Covers SiteCovers at ha
  exact Space.byteAt_eq_of_get? hs hg (by omega) (by omega)

/-- The fields of a call read the same in two spaces that map the image of its program. -/
theorem byteAt_eq (h : x.Stands space) {space' : Space} (hs : space.Separate)
    (hs' : space'.Separate)
    (hg : space'.get? x.resident.number = space.get? x.resident.number) (hc : c ∈ x.calls) {a : Nat}
    (ha : c.site.Covers a) : space'.byteAt a = space.byteAt a := by
  obtain ⟨image, hi, _⟩ := h.mapped
  rw [h.byteAt_image hs hi hc ha, (h.of_get?_eq hg).byteAt_image hs' (hg.trans hi) hc ha]

/-- Calls of programs in different images share no byte. -/
theorem apart_of_ne (hx : x.Stands space) (hy : y.Stands space) (hs : space.Separate)
    (hne : x.resident.number ≠ y.resident.number) {c' : Call} (hc : c ∈ x.calls)
    (hc' : c' ∈ y.calls) : c.site.Apart c'.site := by
  obtain ⟨a, ha, _⟩ := hx.mapped
  obtain ⟨b, hb, _⟩ := hy.mapped
  have h1 := hx.inside hc ha
  have h2 := hy.inside hc' hb
  have h3 := hs _ _ a b hne ha hb
  unfold Image.Apart at h3
  unfold PatchSite.Apart
  omega

end Entry.Stands

/-- The ledger lists the live programs of the world, and the tables track their calls. -/
structure World.Tracks (w : World) (ledger : List Entry) : Prop where
  /-- The entries are those of the live programs. -/
  live_eq : w.live = ledger.map Entry.resident
  /-- The programs stand in memory. -/
  stands : ∀ x ∈ ledger, x.Stands w.space
  /-- No two programs have the same image. -/
  numbers : ledger.Pairwise fun x y => x.resident.number ≠ y.resident.number
  /-- The images do not overlap. -/
  separate : w.space.Separate
  /-- Every call goes through a table. -/
  known : ∀ x ∈ ledger, ∀ c ∈ x.calls, c.table < w.tables.size
  /-- The tables track the calls of the live programs and nothing else. -/
  tracked_eq : ∀ n t, w.tables[n]? = some t → t.tracked = trackedOn n (ledger.flatMap Entry.calls)
  /-- No token was given twice. -/
  tokens : ∀ (n : Nat) (t : Table), w.tables[n]? = some t → t.Tokens

/-- The ledger is true of the world. -/
structure World.Keeps (w : World) (ledger : List Entry) : Prop extends World.Tracks w ledger where
  /-- Every call shows the slot of its key. -/
  shows : ∀ x ∈ ledger, ∀ c ∈ x.calls, ∀ t, w.tables[c.table]? = some t →
    c.site.Shows w.space.byteAt (t.slots c.key)

/-- A property of sites, of the memory they stand in, and of the slots of their keys. -/
abbrev SiteProperty := PatchSite → (Nat → Option UInt8) → Option Address → Prop

/-- The property is one of the fields alone, and holds of every site that shows its slot. -/
structure SiteProperty.OfFields (P : SiteProperty) : Prop where
  /-- Memory outside the fields does not matter. -/
  congr : ∀ {site : PatchSite} {read read' : Nat → Option UInt8} {slot : Option Address},
    P site read slot → (∀ a, site.Covers a → read' a = read a) → P site read' slot
  /-- A site that shows its slot has the property. -/
  of_shows : ∀ {site : PatchSite} {read : Nat → Option UInt8} {slot : Option Address},
    site.Shows read slot → P site read slot

/-- Showing a slot is a property of the fields. -/
theorem ofFields_shows : SiteProperty.OfFields PatchSite.Shows := ⟨.congr, id⟩

/-- Every call of the ledger has the property. -/
def World.Every (w : World) (ledger : List Entry) (P : SiteProperty) : Prop :=
  ∀ x ∈ ledger, ∀ c ∈ x.calls, ∀ t, w.tables[c.table]? = some t →
    P c.site w.space.byteAt (t.slots c.key)

namespace World.Tracks

variable {w : World} {ledger : List Entry} {P : SiteProperty}

/-- Nothing is live in an empty world. -/
theorem empty : Tracks {} [] where
  live_eq := rfl
  stands := by simp
  numbers := .nil
  separate := by
    intro m n a b _ ha
    simp [Space.get?] at ha
  known := by simp
  tracked_eq := by simp
  tokens := by simp

/-- Two calls of live programs share no byte. -/
theorem calls_apart (h : w.Tracks ledger) {x y : Entry} (hx : x ∈ ledger) (hy : y ∈ ledger)
    {c c' : Call} (hc : c ∈ x.calls) (hc' : c' ∈ y.calls) (hne : c ≠ c') :
    c.site.Apart c'.site := by
  by_cases hxy : x = y
  · subst hxy
    exact (h.stands x hx).apart hc hc' hne
  · have hsymm : Std.Symm fun x y : Entry => x.resident.number ≠ y.resident.number :=
      ⟨fun _ _ hab => hab.symm⟩
    exact (h.stands x hx).apart_of_ne (h.stands y hy) h.separate (h.numbers.forall hx hy hxy) hc hc'

/-- What a table tracks is a call of a live program. -/
theorem exists_call (h : w.Tracks ledger) {n : Nat} {t : Table} (ht : w.tables[n]? = some t)
    {s : Tracked} (hs : s ∈ t.tracked) :
    ∃ x ∈ ledger, ∃ c ∈ x.calls, c.table = n ∧ c.tracked = s := by
  rw [h.tracked_eq n t ht] at hs
  obtain ⟨c, hc, hn, hs⟩ := mem_trackedOn.mp hs
  obtain ⟨x, hx, hc⟩ := List.mem_flatMap.mp hc
  exact ⟨x, hx, c, hc, hn, hs⟩

/-- A call of a live program is tracked by its table. -/
theorem mem_tracked (h : w.Tracks ledger) {x : Entry} (hx : x ∈ ledger) {c : Call}
    (hc : c ∈ x.calls) {t : Table} (ht : w.tables[c.table]? = some t) : c.tracked ∈ t.tracked := by
  rw [h.tracked_eq _ t ht]
  exact mem_trackedOn.mpr ⟨c, List.mem_flatMap.mpr ⟨x, hx, hc⟩, rfl, rfl⟩

/-- The fields of a tracked site are in their places. -/
theorem placed (h : w.Tracks ledger) {n : Nat} {t : Table} (ht : w.tables[n]? = some t) :
    ∀ s ∈ t.tracked, s.site.Placed := by
  intro s hs
  obtain ⟨x, hx, c, hc, _, rfl⟩ := h.exists_call ht hs
  exact (h.stands x hx).placed hc

/-- No two tracked sites share a byte. -/
theorem apart (h : w.Tracks ledger) {n : Nat} {t : Table} (ht : w.tables[n]? = some t) :
    t.tracked.Pairwise fun a b => a.site.Apart b.site := by
  refine List.Pairwise.imp_of_mem (fun {a b} ha hb hab => ?_) (h.tokens n t ht).sorted
  obtain ⟨x, hx, c, hc, _, rfl⟩ := h.exists_call ht ha
  obtain ⟨y, hy, c', hc', _, rfl⟩ := h.exists_call ht hb
  refine h.calls_apart hx hy hc hc' fun heq => ?_
  rw [heq] at hab
  exact Nat.lt_irrefl _ hab

/-- Making a table keeps the ledger and what is true of its calls. -/
theorem table (h : w.Tracks ledger) (hP : w.Every ledger P) (maxEntries : UInt32) :
    Tracks { w with tables := w.tables.push { maxEntries } } ledger ∧
      Every { w with tables := w.tables.push { maxEntries } } ledger P := by
  have hnew : trackedOn w.tables.size (ledger.flatMap Entry.calls) = [] := by
    refine List.eq_nil_iff_forall_not_mem.mpr fun s hs => ?_
    obtain ⟨c, hc, hn, _⟩ := mem_trackedOn.mp hs
    obtain ⟨x, hx, hc⟩ := List.mem_flatMap.mp hc
    exact absurd hn (Nat.ne_of_lt (h.known x hx c hc))
  have hcases : ∀ n t, (w.tables.push { maxEntries })[n]? = some t →
      w.tables[n]? = some t ∨ n = w.tables.size ∧ t = { maxEntries } := by
    intro n t ht
    rw [Array.getElem?_push] at ht
    split at ht
    · rename_i hn
      cases ht
      exact .inr ⟨hn, rfl⟩
    · exact .inl ht
  refine ⟨⟨h.live_eq, h.stands, h.numbers, h.separate, ?_, ?_, ?_⟩, ?_⟩
  · intro x hx c hc
    have hlt := h.known x hx c hc
    rw [Array.size_push]
    omega
  · intro n t ht
    rcases hcases n t ht with ht | ⟨rfl, rfl⟩
    · exact h.tracked_eq n t ht
    · exact hnew.symm
  · intro n t ht
    rcases hcases n t ht with ht | ⟨rfl, rfl⟩
    · exact h.tokens n t ht
    · exact ⟨.nil, by simp⟩
  · intro x hx c hc t ht
    rcases hcases c.table t ht with ht | ⟨hn, _⟩
    · exact hP x hx c hc t ht
    · exact absurd hn (Nat.ne_of_lt (h.known x hx c hc))

/-- What further calls do to the tables. -/
theorem exists_table (h : w.Tracks ledger) {tables' : Array Table} {calls : List Call}
    (he : Extended w.tables tables' calls) {n : Nat} {t' : Table} (ht : tables'[n]? = some t') :
    ∃ t, w.tables[n]? = some t ∧ t'.slots = t.slots ∧ t'.Tokens ∧
      t'.tracked = trackedOn n (ledger.flatMap Entry.calls ++ calls) := by
  obtain ⟨t, hn, hext⟩ := he.exists_before ht
  refine ⟨t, hn, hext.slots_eq, (h.tokens n t hn).extends hext, ?_⟩
  rw [hext.tracked_eq, h.tracked_eq n t hn, trackedOn_append]

/-- A compilation that made no program live keeps the ledger and what is true of its calls. -/
theorem extended (h : w.Tracks ledger) (hP : w.Every ledger P) {tables' : Array Table}
    (he : Extended w.tables tables' []) (waiting : List PendingProgram) :
    Tracks { w with tables := tables', waiting := waiting } ledger ∧
      Every { w with tables := tables', waiting := waiting } ledger P := by
  refine ⟨⟨h.live_eq, h.stands, h.numbers, h.separate, ?_, ?_, ?_⟩, ?_⟩
  · intro x hx c hc
    rw [he.size_eq]
    exact h.known x hx c hc
  · intro n t ht
    obtain ⟨_, _, _, _, htracked⟩ := h.exists_table he ht
    rw [htracked, List.append_nil]
  · intro n t ht
    obtain ⟨_, _, _, htokens, _⟩ := h.exists_table he ht
    exact htokens
  · intro x hx c hc t ht
    obtain ⟨_, hn, hslots, _, _⟩ := h.exists_table he ht
    rw [hslots]
    exact hP x hx c hc _ hn

/-- The images of the live programs are where they were when a further image is mapped. -/
theorem get?_push_of_mem (h : w.Tracks ledger) {x : Entry} (hx : x ∈ ledger) (image : Image) :
    x.resident.number ≠ w.space.images.size ∧
      (w.space.push (some image)).get? x.resident.number = w.space.get? x.resident.number := by
  obtain ⟨own, hi, _⟩ := (h.stands x hx).mapped
  have hne := Nat.ne_of_lt (Space.lt_of_get? hi)
  exact ⟨hne, by rw [Space.get?_push, if_neg hne]⟩

/-- A program that becomes live gets an entry. -/
theorem enter (h : w.Tracks ledger) (hP : w.Every ledger P) (hlocal : P.OfFields) {source : Source}
    {c : CompiledProgram} {e : Emission} {done : Installation} (he : Emits source w.tables e done c)
    (hfree : ∀ n image, w.space.get? n = some image → image.Apart c.image) :
    ∃ x, Tracks { w with
        space := w.space.push (some c.image)
        tables := done.tables
        live := w.live ++ [⟨w.space.images.size, source, c⟩] } (ledger ++ [x]) ∧
      Every { w with
        space := w.space.push (some c.image)
        tables := done.tables
        live := w.live ++ [⟨w.space.images.size, source, c⟩] } (ledger ++ [x]) P := by
  obtain ⟨calls, hare, htokens, hext, hknown, hshows⟩ := he.exists_calls
  let x : Entry := ⟨⟨w.space.images.size, source, c⟩, e, calls⟩
  have hold := fun y hy => (h.get?_push_of_mem (x := y) hy c.image).1
  have hsame := fun y hy => (h.get?_push_of_mem (x := y) hy c.image).2
  have hnew : (w.space.push (some c.image)).get? w.space.images.size = some c.image := by
    rw [Space.get?_push, if_pos rfl]
  have hseparate : (w.space.push (some c.image)).Separate := h.separate.push hfree
  have hstands : x.Stands (w.space.push (some c.image)) :=
    ⟨⟨w.tables, done, he⟩, hare, htokens, c.image, hnew, he.image_block.1, he.image_block.2,
      fun i hi => he.image_frame hi⟩
  refine ⟨x, ⟨?_, ?_, ?_, hseparate, ?_, ?_, ?_⟩, ?_⟩
  · rw [List.map_append, ← h.live_eq]
    rfl
  · intro y hy
    rcases List.mem_append.mp hy with hy | hy
    · exact (h.stands y hy).of_get?_eq (hsame y hy)
    · rw [List.mem_singleton.mp hy]
      exact hstands
  · refine List.pairwise_append.mpr ⟨h.numbers, List.pairwise_singleton _ _, fun y hy z hz => ?_⟩
    rw [List.mem_singleton.mp hz]
    exact hold y hy
  · intro y hy call hcall
    rw [hext.size_eq]
    rcases List.mem_append.mp hy with hy | hy
    · exact h.known y hy call hcall
    · rw [List.mem_singleton.mp hy] at hcall
      exact hknown call hcall
  · intro n t ht
    obtain ⟨_, _, _, _, htracked⟩ := h.exists_table hext ht
    rw [htracked]
    simp [x]
  · intro n t ht
    obtain ⟨_, _, _, htokens, _⟩ := h.exists_table hext ht
    exact htokens
  · intro y hy call hcall t ht
    obtain ⟨u, hu, hslots, _, _⟩ := h.exists_table hext ht
    rw [hslots]
    rcases List.mem_append.mp hy with hy | hy
    · exact hlocal.congr (hP y hy call hcall u hu) fun a ha =>
        (h.stands y hy).byteAt_eq h.separate hseparate (hsame y hy) hcall ha
    · rw [List.mem_singleton.mp hy] at hcall
      exact hlocal.congr (hlocal.of_shows (hshows call hcall u hu)) fun a ha =>
        hstands.byteAt_image hseparate hnew hcall ha

/-- No call has a field where a live program stands as it was emitted. -/
theorem not_covers (h : w.Tracks ledger) {x y : Entry} (hx : x ∈ ledger) (hy : y ∈ ledger) {c : Call}
    (hc : c ∈ y.calls) {image : Image} (hg : w.space.get? x.resident.number = some image) {i : Nat}
    (hi : i < image.size) (hfree : ∀ d ∈ x.emission.out.direct, ¬d.Covers i) :
    ¬c.site.Covers (image.base.toNat + i) := by
  by_cases hxy : x = y
  · subst hxy
    obtain ⟨d, hd, _, hplace⟩ := (h.stands x hx).areCalls.exists_site hc
    obtain ⟨image', hg', hbase, _⟩ := (h.stands x hx).mapped
    rw [hg] at hg'
    cases hg'
    rw [hbase, DirectSite.covers_of_place hplace]
    exact hfree d hd
  · have hsymm : Std.Symm fun x y : Entry => x.resident.number ≠ y.resident.number :=
      ⟨fun _ _ hab => hab.symm⟩
    obtain ⟨other, ho, _⟩ := (h.stands y hy).mapped
    have h1 := h.separate _ _ image other (h.numbers.forall hx hy hxy) hg ho
    have h2 := (h.stands y hy).inside hc ho
    have h3 := ((h.stands y hy).placed hc).fields
    have h4 := ((h.stands y hy).placed hc).resume_eq
    unfold Image.Apart at h1
    unfold PatchSite.Covers SiteCovers
    omega

/-- Programs stand in memory when only fields of calls change. -/
theorem stands_of_keeps (h : w.Tracks ledger) {space' : Space} {changed : Nat → Prop}
    (hkeep : w.space.Keeps space' changed)
    (hcalls : ∀ a, changed a → ∃ y ∈ ledger, ∃ c ∈ y.calls, c.site.Covers a) {x : Entry}
    (hx : x ∈ ledger) : x.Stands space' := by
  refine (h.stands x hx).congr fun image hi => ?_
  obtain ⟨image', hi', hsame⟩ := hkeep.same.get? hi
  have hsize := hsame.size_eq
  have hbase := hsame.base_eq
  refine ⟨image', hi', hbase, hsize, fun i hfree => ?_⟩
  by_cases hin : i < image.size
  · have hout : space'.byteAt (image.base.toNat + i) = w.space.byteAt (image.base.toNat + i) := by
      refine hkeep.outside _ fun hchanged => ?_
      obtain ⟨y, hy, c, hc, hcover⟩ := hcalls _ hchanged
      exact h.not_covers hx hy hc hi hin hfree hcover
    rw [Space.byteAt_eq_of_get? h.separate hi (by omega) (by omega), Image.byteAt_base_add,
      ← hbase, Space.byteAt_eq_of_get? (hkeep.same.separate h.separate) hi' (by omega) (by omega),
      Image.byteAt_base_add] at hout
    exact hout
  · unfold Image.size at hin hsize
    rw [Array.getElem?_eq_none (by omega), Array.getElem?_eq_none (by omega)]

/-- A call through another table or under another key than the changed sites keeps its fields. -/
theorem byteAt_eq_of_sitesOn (h : w.Tracks ledger) {n : Nat} {t : Table} {key : UInt32}
    (ht : w.tables[n]? = some t) {space' : Space}
    (hkeep : w.space.Keeps space' fun a => ∃ s ∈ t.sitesOn key, s.site.Covers a) {x : Entry}
    (hx : x ∈ ledger) {c : Call} (hc : c ∈ x.calls) (hne : c.table ≠ n ∨ c.key ≠ key) {a : Nat}
    (ha : c.site.Covers a) : space'.byteAt a = w.space.byteAt a := by
  refine hkeep.outside a ?_
  rintro ⟨s, hs, hcover⟩
  obtain ⟨hs, hkey⟩ := Table.mem_sitesOn.mp hs
  obtain ⟨y, hy, c', hc', hn, rfl⟩ := h.exists_call ht hs
  have hcc : c ≠ c' := fun heq => by
    rw [heq] at hne
    exact hne.elim (fun hn' => hn' hn) (fun hk => hk hkey)
  exact (h.calls_apart hx hy hc hc' hcc).not_covers ((h.stands x hx).placed hc)
    ((h.stands y hy).placed hc') ha hcover

/-- Changing the fields of the sites of a key, and perhaps the slot of the key, keeps the ledger. -/
theorem patched (h : w.Tracks ledger) {n : Nat} {t t' : Table} {key : UInt32} {space' : Space}
    (ht : w.tables[n]? = some t)
    (hkeep : w.space.Keeps space' fun a => ∃ s ∈ t.sitesOn key, s.site.Covers a)
    (htracked : t'.tracked = t.tracked) (htokens : t'.nextToken = t.nextToken) :
    Tracks { w with space := space', tables := w.tables.setIfInBounds n t' } ledger := by
  have hlt := (Array.getElem?_eq_some_iff.mp ht).1
  have hget : ∀ m u, (w.tables.setIfInBounds n t')[m]? = some u →
      (m = n ∧ u = t') ∨ w.tables[m]? = some u := by
    intro m u hm
    rw [Array.getElem?_setIfInBounds] at hm
    by_cases hnm : n = m
    · rw [if_pos hnm, if_pos hlt] at hm
      exact .inl ⟨hnm.symm, (Option.some.inj hm).symm⟩
    · rw [if_neg hnm] at hm
      exact .inr hm
  refine ⟨h.live_eq, ?_, h.numbers, hkeep.same.separate h.separate, ?_, ?_, ?_⟩
  · intro x hx
    refine h.stands_of_keeps hkeep ?_ hx
    rintro a ⟨s, hs, hcover⟩
    obtain ⟨y, hy, c, hc, _, rfl⟩ := h.exists_call ht (Table.mem_sitesOn.mp hs).1
    exact ⟨y, hy, c, hc, hcover⟩
  · intro x hx c hc
    rw [Array.size_setIfInBounds]
    exact h.known x hx c hc
  · intro m u hm
    rcases hget m u hm with ⟨rfl, rfl⟩ | hm
    · rw [htracked]
      exact h.tracked_eq m t ht
    · exact h.tracked_eq m u hm
  · intro m u hm
    rcases hget m u hm with ⟨rfl, rfl⟩ | hm
    · have hold := h.tokens m t ht
      exact ⟨by rw [htracked]; exact hold.sorted, by rw [htracked, htokens]; exact hold.below⟩
    · exact h.tokens m u hm

/-- Releasing the tokens of a program leaves its tables with the calls of the others. -/
theorem exists_released {front back : List Entry} {x : Entry} (h : w.Tracks (front ++ x :: back))
    {n : Nat} {u : Table} (hu : (release w.tables x.resident.compiled.installed)[n]? = some u) :
    ∃ t, w.tables[n]? = some t ∧ u.slots = t.slots ∧ u.Tokens ∧
      u.tracked = trackedOn n ((front ++ back).flatMap Entry.calls) := by
  have hx : x.Stands w.space := h.stands x (by simp)
  rw [getElem?_release, hx.tokens_eq] at hu
  obtain ⟨t, ht, rfl⟩ := Option.map_eq_some_iff.mp hu
  have htokens := h.tokens n t ht
  have hsorted := htokens.sorted
  have htracked : t.tracked = trackedOn n (front.flatMap Entry.calls) ++ trackedOn n x.calls ++
      trackedOn n (back.flatMap Entry.calls) := by
    rw [h.tracked_eq n t ht, List.flatMap_append, List.flatMap_cons, trackedOn_append,
      trackedOn_append, List.append_assoc]
  rw [htracked] at hsorted
  obtain ⟨hfront, _, hbehind⟩ := List.pairwise_append.mp hsorted
  obtain ⟨_, _, hbefore⟩ := List.pairwise_append.mp hfront
  have hfilter := filter_tokens n x.calls (trackedOn n (front.flatMap Entry.calls))
    (trackedOn n (back.flatMap Entry.calls))
    (fun a ha b hb => Nat.ne_of_lt (hbefore b hb a ha))
    (fun a ha b hb => Nat.ne_of_gt (hbehind a (List.mem_append_right _ ha) b hb))
  rw [← htracked] at hfilter
  refine ⟨t, ht, rfl, ⟨htokens.sorted.filter _, fun s hs => ?_⟩, ?_⟩
  · exact htokens.below s (List.mem_filter.mp hs).1
  · rw [List.flatMap_append, trackedOn_append]
    exact hfilter

/-- Dropping a program takes its entry out of the ledger. -/
theorem drop {front back : List Entry} {x : Entry} (h : w.Tracks (front ++ x :: back))
    (hP : w.Every (front ++ x :: back) P) (hlocal : P.OfFields) :
    Tracks { w with
        space := w.space.set x.resident.number none
        tables := release w.tables x.resident.compiled.installed
        live := (front ++ back).map Entry.resident } (front ++ back) ∧
      Every { w with
        space := w.space.set x.resident.number none
        tables := release w.tables x.resident.compiled.installed
        live := (front ++ back).map Entry.resident } (front ++ back) P := by
  have hx : x.Stands w.space := h.stands x (by simp)
  obtain ⟨image, himage, _⟩ := hx.mapped
  have hlt := Space.lt_of_get? himage
  have hsub : ∀ y ∈ front ++ back, y ∈ front ++ x :: back := by
    intro y hy
    rcases List.mem_append.mp hy with hy | hy
    · simp [hy]
    · simp [hy]
  obtain ⟨hfront, hback, hacross⟩ := List.pairwise_append.mp h.numbers
  obtain ⟨hxback, hback⟩ := List.pairwise_cons.mp hback
  have hother : ∀ y ∈ front ++ back, (w.space.set x.resident.number none).get? y.resident.number =
      w.space.get? y.resident.number := by
    intro y hy
    have hne : y.resident.number ≠ x.resident.number := by
      rcases List.mem_append.mp hy with hy | hy
      · exact hacross y hy x (by simp)
      · exact (hxback y hy).symm
    rw [Space.get?_set hlt, if_neg hne]
  have hseparate := h.separate.set_none hlt
  refine ⟨⟨rfl, ?_, ?_, hseparate, ?_, ?_, ?_⟩, ?_⟩
  · intro y hy
    exact (h.stands y (hsub y hy)).of_get?_eq (hother y hy)
  · refine List.pairwise_append.mpr ⟨hfront, hback, fun y hy z hz => hacross y hy z (by simp [hz])⟩
  · intro y hy c hc
    rw [size_release]
    exact h.known y (hsub y hy) c hc
  · intro n u hu
    obtain ⟨_, _, _, _, htracked⟩ := h.exists_released hu
    exact htracked
  · intro n u hu
    obtain ⟨_, _, _, htokens, _⟩ := h.exists_released hu
    exact htokens
  · intro y hy c hc u hu
    obtain ⟨t, ht, hslots, _, _⟩ := h.exists_released hu
    rw [hslots]
    exact hlocal.congr (hP y (hsub y hy) c hc t ht) fun a ha =>
      (h.stands y (hsub y hy)).byteAt_eq h.separate hseparate (hother y hy) hc ha

/-- A compilation keeps a ledger and what is true of its calls. -/
theorem settle (h : w.Tracks ledger) (hP : w.Every ledger P) (hlocal : P.OfFields) {source : Source}
    {k : Compilation} {w' : World} (hs : w.settle source k = some w')
    (hfailed : ∀ f, k.outcome = .error f → Undone w.tables k.tables)
    (hpending : ∀ p, k.outcome = .ok (.pending p) → k.tables = w.tables)
    (hcompiled : ∀ c, k.outcome = .ok (.compiled c) →
      ∃ e done, Emits source w.tables e done c ∧ k.tables = done.tables) :
    ∃ ledger', w'.Tracks ledger' ∧ w'.Every ledger' P := by
  unfold World.settle at hs
  split at hs
  · rename_i f hf
    cases hs
    exact ⟨ledger, h.extended hP ((hfailed f hf).extended h.tokens) w.waiting⟩
  · rename_i p hp
    split at hs
    · cases hs
      rw [hpending p hp]
      exact ⟨ledger, h.extended hP (.refl _) _⟩
    · cases hs
  · rename_i c hc
    split at hs
    · rename_i hfree
      cases hs
      obtain ⟨e, done, he, ht⟩ := hcompiled c hc
      rw [ht]
      obtain ⟨x, hx⟩ := h.enter hP hlocal he fun n image hi =>
        hfree.1 _ (Array.mem_of_getElem? (Space.get?_eq_some.mp hi)) image rfl
      exact ⟨_, hx⟩
    · cases hs

/-- Every action but an update keeps a ledger and what is true of its calls. -/
theorem step (h : w.Tracks ledger) (hP : w.Every ledger P) (hlocal : P.OfFields) {action : Action}
    {w' : World} (hs : w.step action = some w')
    (hupdate : ∀ number key entry access, action ≠ .update number key entry access) :
    ∃ ledger', w'.Tracks ledger' ∧ w'.Every ledger' P := by
  cases action with
  | table maxEntries =>
    cases hs
    exact ⟨ledger, h.table hP maxEntries⟩
  | compile config program resolve alloc =>
    exact h.settle hP hlocal hs (fun f hf => compile_failed hf)
      (fun p hp => (compile_pending hp).2.2.1) fun c hc => by
        obtain ⟨e, done, he, ht, _⟩ := compile_emits hc
        exact ⟨e, done, he, ht⟩
  | finish number program resolve =>
    rw [World.step] at hs
    split at hs
    · cases hs
    · rename_i p _
      have hw := h.extended hP (.refl _) (w.waiting.eraseIdx number)
      exact hw.1.settle hw.2 hlocal hs (fun f hf => finish_failed hf)
        (fun q hq => absurd hq finish_ne_pending) fun c hc => by
          obtain ⟨e, done, he, ht, _⟩ := finish_emits hc
          exact ⟨e, done, he, ht⟩
  | update number key entry access => exact absurd rfl (hupdate number key entry access)
  | drop number =>
    rw [World.step] at hs
    split at hs
    · cases hs
    · rename_i r hr
      cases hs
      rw [h.live_eq, List.getElem?_map] at hr
      obtain ⟨x, hx, rfl⟩ := Option.map_eq_some_iff.mp hr
      have hsplit : ledger = ledger.take number ++ x :: ledger.drop (number + 1) := by
        obtain ⟨hlt, rfl⟩ := List.getElem?_eq_some_iff.mp hx
        rw [List.getElem_cons_drop, List.take_append_drop]
      have hlive : w.live.eraseIdx number =
          (ledger.take number ++ ledger.drop (number + 1)).map Entry.resident := by
        rw [h.live_eq, List.eraseIdx_eq_take_drop_succ, List.map_append, List.map_take,
          List.map_drop]
      rw [hsplit] at h hP
      rw [hlive]
      exact ⟨_, h.drop hP hlocal⟩

end World.Tracks

namespace World.Keeps

variable {w : World} {ledger : List Entry}

/-- Nothing is live in an empty world. -/
theorem empty : Keeps {} [] := ⟨.empty, by simp⟩

/-- Every table agrees with the mapped images. -/
theorem consistent (h : w.Keeps ledger) {n : Nat} {t : Table} (ht : w.tables[n]? = some t) :
    t.Consistent w.space where
  separate := h.separate
  placed := h.placed ht
  apart := h.apart ht
  shows := by
    intro s hs
    obtain ⟨x, hx, c, hc, rfl, rfl⟩ := h.exists_call ht hs
    exact h.shows x hx c hc t ht

/-- Setting or clearing a slot keeps the ledger. -/
theorem update (h : w.Keeps ledger) {n : Nat} {t t' : Table} {space' : Space} {key : UInt32}
    {entry : Option Address} {access : List Access} (ht : w.tables[n]? = some t)
    (hu : t.update w.space key entry access = (space', .ok t')) :
    Keeps { w with space := space', tables := w.tables.setIfInBounds n t' } ledger := by
  have hlt := (Array.getElem?_eq_some_iff.mp ht).1
  obtain ⟨hkeep, hshow, rfl⟩ :
      w.space.Keeps space' (fun a => ∃ s ∈ t.sitesOn key, s.site.Covers a) ∧
      (∀ s ∈ t.sitesOn key, s.site.Shows space'.byteAt entry) ∧ t' = t.setSlot key entry := by
    rcases Table.update_cases (h.consistent ht) (Table.update_granted hu) (by simp) with ⟨_, _, hr⟩ |
      ⟨_, moved, rest, hsites, hkeep, hshow, ⟨rfl, hr⟩ | ⟨_, _, _, _, _, _, _, hr⟩⟩
    · cases hr
    · rw [hsites, List.append_nil]
      exact ⟨hkeep, hshow, Except.ok.inj hr⟩
    · cases hr
  refine ⟨h.patched ht hkeep rfl rfl, ?_⟩
  intro x hx c hc u hm
  rw [Array.getElem?_setIfInBounds] at hm
  by_cases hn : n = c.table
  · subst hn
    rw [if_pos rfl, if_pos hlt] at hm
    cases hm
    by_cases hkey : c.key = key
    · have hmem : c.tracked ∈ t.sitesOn key :=
        Table.mem_sitesOn.mpr ⟨h.mem_tracked hx hc ht, hkey⟩
      have hslot : (t.setSlot key entry).slots c.key = entry := if_pos hkey
      rw [hslot]
      exact hshow _ hmem
    · have hslot : (t.setSlot key entry).slots c.key = t.slots c.key := if_neg hkey
      rw [hslot]
      exact (h.shows x hx c hc t ht).congr fun a ha =>
        h.byteAt_eq_of_sitesOn ht hkeep hx hc (.inr hkey) ha
  · rw [if_neg hn] at hm
    exact (h.shows x hx c hc u hm).congr fun a ha =>
      h.byteAt_eq_of_sitesOn ht hkeep hx hc (.inl (Ne.symm hn)) ha

/-- Every action keeps a ledger. -/
theorem step (h : w.Keeps ledger) {action : Action} {w' : World} (hs : w.step action = some w') :
    ∃ ledger', w'.Keeps ledger' := by
  by_cases hupdate : ∃ number key entry access, action = .update number key entry access
  · obtain ⟨number, key, entry, access, rfl⟩ := hupdate
    rw [World.step] at hs
    split at hs
    · cases hs
    · rename_i t ht
      split at hs
      · cases hs
      · rename_i space' t' hu
        cases hs
        exact ⟨ledger, h.update ht hu⟩
  · obtain ⟨ledger', htracks, hshows⟩ := h.toTracks.step h.shows ofFields_shows hs
      fun number key entry access heq => hupdate ⟨number, key, entry, access, heq⟩
    exact ⟨ledger', htracks, hshows⟩

/-- Every history keeps a ledger. -/
theorem run {actions : List Action} {w w' : World} {ledger : List Entry} (h : w.Keeps ledger)
    (hr : w.run actions = some w') : ∃ ledger', w'.Keeps ledger' := by
  induction actions generalizing w ledger with
  | nil =>
    cases hr
    exact ⟨ledger, h⟩
  | cons action rest ih =>
    obtain ⟨next, hn, hr⟩ := Option.bind_eq_some_iff.mp hr
    obtain ⟨ledger', h'⟩ := h.step hn
    exact ih h' hr

end World.Keeps

/-- The code in memory agrees with the tables, by a ledger of the live programs: the tables track
their direct tail calls and nothing else, every tracked site shows the slot of its key, and outside
the fields of the calls every image is what was emitted. -/
structure World.Agrees (w : World) (ledger : List Entry) : Prop where
  /-- The entries are those of the live programs. -/
  live_eq : w.live = ledger.map Entry.resident
  /-- The calls are the emitted ones, and the images are what was emitted outside their fields. -/
  stands : ∀ x ∈ ledger, x.Stands w.space
  /-- Every call goes through a table. -/
  known : ∀ x ∈ ledger, ∀ c ∈ x.calls, c.table < w.tables.size
  /-- The tracked sites are the calls of the live programs. -/
  tracked_eq : ∀ n t, w.tables[n]? = some t → t.tracked = trackedOn n (ledger.flatMap Entry.calls)
  /-- Every tracked site shows the slot of its key. -/
  shows : ∀ (n : Nat) (t : Table), w.tables[n]? = some t → ∀ s ∈ t.tracked,
    s.site.Shows w.space.byteAt (t.slots s.key)

/-- Tables and code agree after every history of compilations, updates that were carried out, and
drops. -/
theorem agrees_of_run {actions : List Action} {w : World} (h : World.run {} actions = some w) :
    ∃ ledger, w.Agrees ledger := by
  obtain ⟨ledger, hk⟩ := World.Keeps.empty.run h
  exact ⟨ledger, hk.live_eq, hk.stands, hk.known, hk.tracked_eq, fun n t ht =>
    (hk.consistent ht).shows⟩

/-- Two direct tail calls through one table, and an exit. -/
def callingProgram : Program where
  name := "calling"
  insns := [⟨0xF5, 0, 0, 0, 1⟩, ⟨0xF5, 0, 0, 0, 2⟩, ⟨0x95, 0, 0, 0, 0⟩]
  descriptors := [{ table := 0, key := 0 }, { table := 0, key := 1 }]

/-- A call of a sub-program, a direct tail call, and an exit. -/
def linkedProgram : Program where
  name := "linked"
  insns := [⟨0x85, 0, 1, 0, 1⟩, ⟨0xF5, 0, 0, 0, 1⟩, ⟨0x95, 0, 0, 0, 0⟩]
  descriptors := [{ table := 0, key := 0 }]

/-- Programs come and go while slots are set, moved and cleared. -/
def callingHistory : List Action :=
  [.table 2,
    .compile {} callingProgram (fun _ => none) fun size => .ok (.blank 0x10000 size),
    .update 0 0 (some 0x50000),
    .compile {} linkedProgram (fun _ => none) fun size => .ok (.blank 0x20000 size),
    .update 0 0 (some 0x60000),
    .finish 0 linkedProgram fun _ => some 0x30000,
    .update 0 0 none,
    .update 0 1 (some 0x50000),
    .compile {} callingProgram (fun _ => none) fun size => .ok (.blank 0x40000 size),
    .drop 0,
    .update 0 0 (some 0x70000)]

/-- The history ends with two live programs and three tracked sites that agree with their slots. -/
theorem agrees_callingHistory :
    ∃ w, World.run {} callingHistory = some w ∧ w.live.map Resident.number = [1, 2] ∧
      (w.tables.toList.map fun t => t.tracked.map fun s => (s.token, s.key, t.slots s.key)) =
        [[(3, 0, some 0x70000), (4, 0, some 0x70000), (5, 1, some 0x50000)]] ∧
      ∃ ledger, w.Agrees ledger := by
  have hlive : ((World.run {} callingHistory).map fun w => w.live.map Resident.number) =
      some [1, 2] := by
    decide +kernel
  have htracked : ((World.run {} callingHistory).map fun w =>
      w.tables.toList.map fun t => t.tracked.map fun s => (s.token, s.key, t.slots s.key)) =
        some [[(3, 0, some 0x70000), (4, 0, some 0x70000), (5, 1, some 0x50000)]] := by
    decide +kernel
  obtain ⟨w, hw, hnumbers⟩ := Option.map_eq_some_iff.mp hlive
  rw [hw] at htracked
  exact ⟨w, hw, hnumbers, Option.some.inj htracked, agrees_of_run hw⟩

end NativeForge
