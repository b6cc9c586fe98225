import NativeForge.Proofs.FinalPass
import NativeForge.Proofs.InstalledCalls
import NativeForge.Proofs.ProbeLoads
import NativeForge.Proofs.TableSearch

/-!
# Exception tables of compiled programs

The exception table of a compiled program has one entry for each fault-tolerant load. A search at
the address of a load finds the end of the load and the register slot of its destination; a search
at any other address finds nothing. In the image the table follows the code at the next multiple of
four, and traps fill the rest.

The distances in the table are signed 64-bit sums of addresses. They exist for every block that
lies in one half of the address space, as all mapped blocks do.
-/

namespace NativeForge

open X64 Virtual Target TailCall

namespace ExceptionEntry

/-- An entry has twelve bytes. -/
theorem length_bytes (e : ExceptionEntry) : e.bytes.length = exceptionEntrySize := by
  simp [bytes, Bytes.ofInt32, Bytes.ofUInt32, exceptionEntrySize]

/-- The entries of a table take twelve bytes each. -/
theorem length_flatMap_bytes (entries : List ExceptionEntry) :
    (entries.flatMap bytes).length = entries.length * exceptionEntrySize := by
  induction entries with
  | nil => rfl
  | cons e rest ih =>
    rw [List.flatMap_cons, List.length_append, ih, length_bytes, List.length_cons, Nat.succ_mul,
      Nat.add_comm]

end ExceptionEntry

/-- The block lies in one half of the address space. The halves are far apart for memory: addresses
around the middle belong to no mapping. -/
def Image.InOneHalf (image : Image) : Prop :=
  image.base.toNat + image.size ≤ 2 ^ 63 ∨
    2 ^ 63 ≤ image.base.toNat ∧ image.base.toNat + image.size ≤ 2 ^ 64

instance (image : Image) : Decidable image.InOneHalf := inferInstanceAs (Decidable (_ ∨ _))

namespace ExceptionTable

variable {base : Nat}

/-- Where a row of loads and its entries may lie: the loads before the entries, all in one half of
the address space. -/
structure Fits (base offset : Nat) (sites : List ProbeSite) : Prop where
  /-- The loads end before the entries start. -/
  behind : ∀ site ∈ sites, site.offset + site.size ≤ offset
  /-- The entries end in the half of the address space that the block starts in. -/
  half : sites ≠ [] → base + offset + sites.length * exceptionEntrySize ≤ 2 ^ 63 ∨
    2 ^ 63 ≤ base ∧ base + offset + sites.length * exceptionEntrySize ≤ 2 ^ 64

/-- Loads and entries that fit are addressable: in one half of the address space no sum of their
addresses overflows. -/
theorem Fits.addressable {offset : Nat} {sites : List ProbeSite} (h : Fits base offset sites) :
    Addressable base offset sites := by
  have hentry : exceptionEntrySize = 12 := rfl
  have hhalf : ∀ i, i < sites.length →
      base + (offset + i * exceptionEntrySize) < 2 ^ 63 ∨
        2 ^ 63 ≤ base ∧ base + (offset + i * exceptionEntrySize) < 2 ^ 64 := by
    intro i hi
    have hhalf := h.half (List.ne_nil_of_length_pos (by omega))
    rw [hentry] at hhalf ⊢
    omega
  refine ⟨fun i hi => ?_, fun site hsite => ?_, fun i site hi => ?_⟩
  · have hstart := hhalf i hi
    omega
  · have hle := h.behind site hsite
    have hstart := hhalf 0 (List.length_pos_of_mem hsite)
    omega
  · have hle := h.behind site (List.mem_of_getElem? hi)
    have hstart := hhalf i (List.getElem?_eq_some_iff.mp hi).1
    unfold ProbeSite.distance
    rw [ProbeSite.signed_ofNat (by omega), ProbeSite.signed_ofNat (by omega),
      ProbeSite.signed_ofNat (by omega)]
    rcases hstart with hlow | ⟨hhigh, hlow⟩
    · rw [if_pos (by omega), if_pos (by omega), if_pos (by omega)]
      omega
    · rw [if_neg (by omega), if_pos (by omega), if_pos (by omega)]
      omega

/-- The address behind a load that fits is a word. -/
theorem Fits.resume_lt {offset : Nat} {sites : List ProbeSite} (h : Fits base offset sites)
    {ip : Address} {site : ProbeSite} (hsite : loadAt? base sites ip = some site) :
    ip.toNat + site.size < 2 ^ 64 := by
  obtain ⟨hmem, hip⟩ := loadAt?_eq_some hsite
  have hle := h.behind site hmem
  have hstart := h.addressable.entry_lt 0 (List.length_pos_of_mem hmem)
  omega

end ExceptionTable

/-- The bytes of an image after exception entries were written to it. -/
theorem getElem?_writeEntries {image written : Image} {offset : Nat}
    {entries : List ExceptionEntry}
    (h : writeImage.writeEntries image offset entries = .ok written) :
    (entries ≠ [] → offset + entries.length * exceptionEntrySize ≤ image.size) ∧
    ∀ i, written.bytes[i]? =
      if offset ≤ i ∧ i < offset + entries.length * exceptionEntrySize then
        (entries.flatMap ExceptionEntry.bytes)[i - offset]?
      else image.bytes[i]? := by
  induction entries generalizing image offset with
  | nil =>
    cases h
    refine ⟨fun hne => absurd rfl hne, fun i => ?_⟩
    rw [if_neg (by rw [List.length_nil, Nat.zero_mul]; omega)]
  | cons e rest ih =>
    obtain ⟨next, hn, h⟩ := bind_eq_ok.mp h
    obtain ⟨_, hsize, rfl⟩ := Image.write_eq_ok (mapCause_eq_ok.mp hn)
    obtain ⟨hroom, hbytes⟩ := ih h
    have hlength := e.length_bytes
    have hblock := (Image.sameBlock_poke image offset e.bytes).size_eq
    rw [hlength] at hsize
    rw [hblock] at hroom
    rw [List.length_cons, Nat.succ_mul]
    refine ⟨fun _ => ?_, fun i => ?_⟩
    · cases rest with
      | nil =>
        rw [List.length_nil, Nat.zero_mul]
        omega
      | cons e' rest =>
        have hle := hroom (List.cons_ne_nil _ _)
        omega
    · rw [hbytes i, Image.getElem?_poke _ _ _ (by rw [hlength]; exact hsize), hlength,
        List.flatMap_cons]
      by_cases hfirst : offset ≤ i ∧ i < offset + exceptionEntrySize
      · rw [if_neg (by omega), if_pos hfirst, if_pos (by omega),
          List.getElem?_append_left (by omega)]
      · rw [if_neg hfirst]
        by_cases hrest : offset + exceptionEntrySize ≤ i ∧
            i < offset + exceptionEntrySize + rest.length * exceptionEntrySize
        · rw [if_pos hrest, if_pos (by omega), List.getElem?_append_right (by omega), hlength,
            Nat.sub_add_eq]
        · rw [if_neg hrest, if_neg (by omega)]

/-- What writing an image consists of: the code, and behind it the entries of all loads. -/
theorem writeImage_table {image written : Image} {out : PassOutput} {probes : Nat}
    {exceptions : ExceptionTable} (h : writeImage image out probes = .ok (written, exceptions)) :
    out.probes.length = probes ∧
    exceptionEntries (roundUp out.code.size 4) out.probes = .ok exceptions.entries ∧
    exceptions.addr.toNat = image.base.toNat + roundUp out.code.size 4 ∧
    (exceptions.entries ≠ [] →
      roundUp out.code.size 4 + exceptions.entries.length * exceptionEntrySize ≤ image.size) ∧
    ∀ i, out.code.size ≤ i → written.bytes[i]? =
      if roundUp out.code.size 4 ≤ i ∧
        i < roundUp out.code.size 4 + exceptions.entries.length * exceptionEntrySize then
        (exceptions.entries.flatMap ExceptionEntry.bytes)[i - roundUp out.code.size 4]?
      else image.bytes[i]? := by
  unfold writeImage at h
  split at h
  · exact absurd h (defect_ne_ok _ _)
  · rename_i hcount
    obtain ⟨next, hn, h⟩ := bind_eq_ok.mp h
    obtain ⟨entries, he, h⟩ := bind_eq_ok.mp h
    obtain ⟨last, hl, h⟩ := bind_eq_ok.mp h
    obtain ⟨addr, ha, h⟩ := bind_eq_ok.mp h
    obtain ⟨rfl, rfl⟩ := Prod.mk.inj (pure_eq_ok.mp h)
    obtain ⟨_, hsize, rfl⟩ := Image.write_eq_ok (mapCause_eq_ok.mp hn)
    have hblock := Image.sameBlock_poke image 0 out.code.toList
    obtain ⟨hsame, _⟩ := writeEntries_eq_ok hl
    obtain ⟨hroom, hbytes⟩ := getElem?_writeEntries hl
    have haddr := plus_eq_ok.mp ha
    rw [hsame.base_eq] at haddr
    rw [hblock.size_eq] at hroom
    refine ⟨by simpa using hcount, he, haddr, hroom, fun i hi => ?_⟩
    have houtside : (image.poke 0 out.code.toList).bytes[i]? = image.bytes[i]? := by
      rw [Image.getElem?_poke _ _ _ hsize, if_neg (by rw [Nat.zero_add, Array.length_toList]; omega)]
    rw [hbytes i, houtside]

namespace CompiledProgram

/-- The address of a slot: the address of the image and the offset of the slot. -/
def address (c : CompiledProgram) (k : Nat) : Address :=
  UInt64.ofNat (c.image.base.toNat + c.offset k)

end CompiledProgram

/-- The register that the destination field of a slot names. -/
def Virtual.Program.destination? (p : Program) (k : Nat) : Option VReg :=
  p.insns[k]?.bind fun i => (register i.dst).toOption

/-- The exception table of a compiled program is exact. -/
structure ExactExceptions (config : Config) (program : Program) (c : CompiledProgram) : Prop where
  /-- The slots that the table covers stand in order. -/
  slots_sorted : program.probeSlots.Pairwise (· < ·)
  /-- They are the fault-tolerant loads of the program. -/
  mem_slots : ∀ k, k ∈ program.probeSlots ↔ ∃ i, program.Visits k i ∧ i.isProbeLoad = true
  /-- The table has one entry for each fault-tolerant load. -/
  length_eq : c.exceptions.entries.length = program.probeSlots.length
  /-- The table follows the code, at a multiple of four. -/
  addr_eq : c.exceptions.addr.toNat = c.image.base.toNat + roundUp c.size 4
  /-- The addresses of a load and of the slot behind it are sums without overflow. -/
  address_eq : ∀ k ∈ program.probeSlots,
    (c.address k).toNat = c.image.base.toNat + c.offset k ∧
      (c.address (k + 1)).toNat = c.image.base.toNat + c.offset (k + 1)
  /-- The entries cover the loads in the order of the program. -/
  loads_eq : c.exceptions.loads = (.ok (program.probeSlots.map c.address) : Result Error _)
  /-- A fault at a load goes on at the next slot and clears the destination of the load. -/
  search_load : ∀ k ∈ program.probeSlots, ∃ dst, program.destination? k = some dst ∧
    c.exceptions.search (c.address k) = (.ok (some
      ⟨c.address (k + 1), (config.abi.slot dst.native).toUInt32⟩) : Result Error _)
  /-- A fault anywhere else is not covered. -/
  search_other : ∀ ip, (∀ k ∈ program.probeSlots, ip ≠ c.address k) →
    c.exceptions.search ip = (.ok none : Result Error _)
  /-- The image has room for the table. -/
  room : c.exceptions.entries ≠ [] →
    roundUp c.size 4 + c.exceptions.entries.length * exceptionEntrySize ≤ c.image.size
  /-- The image holds the code, traps up to a multiple of four, the entries in order, and traps up
  to its end. -/
  image_eq : c.code.length = c.size ∧ c.image.bytes.toList =
    (c.code ++ List.replicate (roundUp c.size 4 - c.size) trapByte ++
      c.exceptions.entries.flatMap ExceptionEntry.bytes ++
      List.replicate c.image.size trapByte).take c.image.size

/-- Fresh memory is filled with traps. -/
theorem allocate_eq_ok {alloc : Nat → Result MemoryError Image} {size : Nat} {image : Image}
    (h : allocate alloc size = .ok image) : image.bytes = Array.replicate image.size trapByte := by
  obtain ⟨first, _, hfill⟩ := bind_eq_ok.mp (mapCause_eq_ok.mp h)
  unfold Image.fill at hfill
  split at hfill
  · exact absurd hfill (report_ne_ok _ _)
  · obtain rfl := Except.ok.inj hfill
    simp [Image.size]

/-- A compilation fails before its image is filled, leaves a program waiting, or finalizes the
output of its final pass in memory filled with traps. -/
theorem compile_cases (config : Config) (program : Program) (resolve : CallSite → Option Address)
    (tables : Array Table) (alloc : Nat → Result MemoryError Image) :
    (∃ f, (compile config program resolve tables alloc).outcome = .error f ∧
      f.From [.slot, .lowering, .branch, .pass, .driver]) ∨
    (∃ p, (compile config program resolve tables alloc).outcome = .ok (.pending p)) ∨
    ∃ (settled : Settled) (asked : Option Nat) (image : Image) (out : PassOutput),
      image.bytes = Array.replicate image.size trapByte ∧
      (sourceOf config program resolve).run settled.layout.offsets (some image.base)
        ((sourceOf config program resolve).padded settled.passes) = .ok out ∧
      checkFinal settled.layout out = .ok () ∧
      compile config program resolve tables alloc =
        finalize program tables asked settled.layout (settled.passes + 1) image out := by
  unfold compile
  dsimp only
  split
  · rename_i f hf
    refine .inl ⟨f, rfl, ?_⟩
    rcases Source.layout_eq_error hf with rfl | rfl | ⟨_, _, _, hrun⟩ | ⟨rfl, _⟩
    · simp [Failure.From, Defect.stage]
    · trivial
    · exact (Pass.run_failsOnly _ program _ hrun).mono (by simp)
    · simp [Failure.From, Defect.stage]
  · rename_i settled _
    split
    · rename_i f hf
      exact .inl ⟨f, rfl, failsOnly_word64 _ f hf⟩
    · rename_i size _
      split
      · rename_i f hf
        exact .inl ⟨f, rfl, failsOnly_ofMemory _ f hf⟩
      · rename_i image hi
        unfold emitFinal
        dsimp only
        split
        · rename_i f hf
          exact .inl ⟨f, rfl, (Pass.run_failsOnly _ program _ hf).mono (by simp)⟩
        · rename_i out hrun
          split
          · rename_i f hf
            exact .inl ⟨f, rfl, (checkFinal_failsOnly _ _ f hf).mono (by simp)⟩
          · rename_i hc
            split
            · exact .inr (.inr ⟨settled, some size, image, out, allocate_eq_ok hi, hrun, hc, rfl⟩)
            · exact .inr (.inl ⟨_, rfl⟩)

/-- Finishing a program fails before its image is filled, or finalizes the output of the pass. -/
theorem finish_cases (p : PendingProgram) (program : Program)
    (resolve : CallSite → Option Address) (tables : Array Table) (asked : Option Nat) :
    (∃ f, (p.finish program resolve tables asked).outcome = .error f ∧
      f.From [.slot, .lowering, .branch, .pass, .driver]) ∨
    ∃ out, (⟨p.config, program, p.frame, resolve⟩ : Source).run p.layout.offsets
        (some p.image.base) p.padding = .ok out ∧
      checkFinal p.layout out = .ok () ∧
      p.finish program resolve tables asked =
        finalize program tables asked p.layout (p.passes + 1) p.image out := by
  unfold PendingProgram.finish
  dsimp only
  split
  · rename_i f hf
    exact .inl ⟨f, rfl, (Pass.run_failsOnly _ program _ hf).mono (by simp)⟩
  · rename_i out hrun
    split
    · rename_i f hf
      exact .inl ⟨f, rfl, (checkFinal_failsOnly _ _ f hf).mono (by simp)⟩
    · rename_i hc
      split
      · exact .inr ⟨out, hrun, hc, rfl⟩
      · exact .inl ⟨_, rfl, by simp [Failure.From, Defect.stage]⟩

/-- A finalized program has the table that was written. -/
theorem exceptions_of_finalize {program : Program} {tables : Array Table} {asked : Option Nat}
    {layout : Layout} {passes : Nat} {image written : Image} {out : PassOutput}
    {exceptions : ExceptionTable} {c : CompiledProgram}
    (h : (finalize program tables asked layout passes image out).outcome = .ok (.compiled c))
    (hw : writeImage image out program.probeCount = .ok (written, exceptions)) :
    c.exceptions = exceptions := by
  obtain ⟨written', exceptions', _, hw', _, rfl, _⟩ := finalize_compiled h
  exact (Prod.mk.inj (Except.ok.inj (hw'.symm.trans hw))).2

/-- The record of a load in a compiled program: it stands in a slot with a length, and the slot
names its destination. -/
def IsLoad (config : Config) (program : Program) (c : CompiledProgram) (k : Nat)
    (site : ProbeSite) : Prop :=
  ∃ dst, program.destination? k = some dst ∧ k < program.size ∧ c.offset k < c.offset (k + 1) ∧
    site = ⟨c.offset k, c.offset (k + 1) - c.offset k, config.abi.slot dst.native⟩

namespace Emits

variable {config : Config} {program : Program} {resolve : CallSite → Option Address}
  {tables : Array Table} {e : Emission} {done : Installation} {c : CompiledProgram}

/-- The final pass visits all loads that the program counts. -/
theorem length_probeSteps (he : Emits (sourceOf config program resolve) tables e done c)
    (hcount : e.out.probes.length = program.probeCount) :
    program.probeSteps.length = program.probeCount :=
  (PassOutput.records_of_run he.run_eq).length_eq.trans hcount

/-- The records of the final pass are those of the loads of the program, in order. -/
theorem isLoad_probes (he : Emits (sourceOf config program resolve) tables e done c)
    (hcount : e.out.probes.length = program.probeCount) :
    List.Forall₂ (IsLoad config program c) program.probeSlots e.out.probes := by
  have hrecords : List.Forall₂ (e.out.Records e.pass.abi) program.probeSteps e.out.probes :=
    PassOutput.records_of_run he.run_eq
  have habi : e.pass.abi = config.abi := by
    obtain ⟨padding, hp⟩ := he.pass_eq
    rw [hp]
    rfl
  have hmem : ∀ s ∈ program.probeSteps, s ∈ program.steps := fun s hs => (List.mem_filter.mp hs).1
  rw [← Program.index_probeSteps (he.length_probeSteps hcount), List.forall₂_map_left_iff]
  refine ((List.forall₂_and_left _ _).mpr ⟨hmem, hrecords⟩).imp ?_
  rintro s site ⟨hs, dst, hdst, hlt, rfl⟩
  obtain ⟨i, hi, hregister⟩ := Program.register_of_probeSteps hs hdst
  rw [he.out_offset, he.out_offset] at hlt ⊢
  refine ⟨dst, ?_, (List.getElem?_eq_some_iff.mp hi).1, hlt, by rw [habi]⟩
  rw [Program.destination?, hi, Option.bind_some, hregister]
  rfl

/-- Behind the code no byte belongs to a field of a tail call. -/
theorem not_covers_behind {source : Source} (he : Emits source tables e done c) {i : Nat}
    (hi : c.size ≤ i) : ∀ d ∈ e.out.direct, ¬d.Covers i := by
  intro d hd hcovers
  obtain ⟨hfits, _⟩ := PassOutput.direct_code he.run_eq (fun x hx => one_le_slots hx) hd
  have hfields := hfits.fields
  have hinside := hfits.inside
  rw [he.size_eq] at hinside
  unfold DirectSite.Covers at hcovers
  omega

/-- The code of a compiled program is the start of its image. -/
theorem code_eq_take {source : Source} (he : Emits source tables e done c) :
    c.code.length = c.size ∧ c.code = c.image.bytes.toList.take c.size := by
  refine ⟨he.length_code.trans he.size_eq, ?_⟩
  rw [CompiledProgram.code, Array.toList_extract, List.extract_eq_take_drop, List.drop_zero,
    Nat.sub_zero]

end Emits

/-- Bytes that are the code, then traps, then a table, then traps, read one at a time. -/
theorem eq_code_table {bytes code table : List UInt8} {start : Nat} (hstart : code.length ≤ start)
    (hcode : code = bytes.take code.length)
    (hbehind : ∀ i, code.length ≤ i → i < bytes.length → bytes[i]? =
      if start ≤ i ∧ i < start + table.length then table[i - start]? else some trapByte) :
    bytes = (code ++ List.replicate (start - code.length) trapByte ++ table ++
      List.replicate bytes.length trapByte).take bytes.length := by
  have hlength : (code ++ List.replicate (start - code.length) trapByte).length = start := by
    rw [List.length_append, List.length_replicate]
    omega
  refine List.ext_getElem? fun i => ?_
  rw [List.getElem?_take]
  split
  · rename_i hi
    by_cases hin : i < code.length
    · rw [List.append_assoc, List.append_assoc, List.getElem?_append_left hin]
      conv_rhs => rw [hcode]
      rw [List.getElem?_take, if_pos hin]
    · rw [hbehind i (by omega) hi]
      by_cases hpad : i < start
      · rw [if_neg (by omega), List.append_assoc, List.getElem?_append_left (by omega),
          List.getElem?_append_right (by omega), List.getElem?_replicate, if_pos (by omega)]
      · by_cases htable : i < start + table.length
        · rw [if_pos (by omega), List.getElem?_append_left (by rw [List.length_append]; omega),
            List.getElem?_append_right (by omega), hlength]
        · rw [if_neg (by omega), List.getElem?_append_right (by rw [List.length_append]; omega),
            List.getElem?_replicate, if_pos (by rw [List.length_append]; omega)]
  · rename_i hi
    exact List.getElem?_eq_none (by omega)

/-- Every member of a related row has a partner, on both sides. -/
theorem exists_mem_of_forall₂ {α β : Type} {R : α → β → Prop} {as : List α} {bs : List β}
    (h : List.Forall₂ R as bs) :
    (∀ a ∈ as, ∃ b ∈ bs, R a b) ∧ ∀ b ∈ bs, ∃ a ∈ as, R a b := by
  induction h with
  | nil => simp
  | cons hab _ ih =>
    obtain ⟨hleft, hright⟩ := ih
    refine ⟨fun a ha => ?_, fun b hb => ?_⟩
    · rcases List.mem_cons.mp ha with rfl | ha
      · exact ⟨_, List.mem_cons_self .., hab⟩
      · obtain ⟨b, hb, hr⟩ := hleft a ha
        exact ⟨b, List.mem_cons_of_mem _ hb, hr⟩
    · rcases List.mem_cons.mp hb with rfl | hb
      · exact ⟨_, List.mem_cons_self .., hab⟩
      · obtain ⟨a, ha, hr⟩ := hright b hb
        exact ⟨a, List.mem_cons_of_mem _ ha, hr⟩

/-- Where the loads of a compiled program lie, and where its table may lie. -/
structure LoadsFit (config : Config) (program : Program) (c : CompiledProgram)
    (sites : List ProbeSite) : Prop where
  /-- The sites are the records of the loads, in order. -/
  loads : List.Forall₂ (IsLoad config program c) program.probeSlots sites
  /-- The slots do not overlap. -/
  offset_le : ∀ i j, i ≤ j → j ≤ program.size → c.offset i ≤ c.offset j
  /-- The slots lie in the code. -/
  offset_le_size : ∀ i, i ≤ program.size → c.offset i ≤ c.size
  /-- Loads and entries end in the half of the address space that the image starts in. -/
  half : sites ≠ [] →
    c.image.base.toNat + roundUp c.size 4 + sites.length * exceptionEntrySize ≤ 2 ^ 63 ∨
    2 ^ 63 ≤ c.image.base.toNat ∧
      c.image.base.toNat + roundUp c.size 4 + sites.length * exceptionEntrySize ≤ 2 ^ 64

namespace LoadsFit

variable {config : Config} {program : Program} {c : CompiledProgram} {sites : List ProbeSite}

/-- The loads lie before the entries. -/
theorem fits (h : LoadsFit config program c sites) :
    ExceptionTable.Fits c.image.base.toNat (roundUp c.size 4) sites := by
  refine ⟨fun site hsite => ?_, h.half⟩
  obtain ⟨k, _, dst, _, hk, hlt, rfl⟩ := (exists_mem_of_forall₂ h.loads).2 site hsite
  have hend := h.offset_le_size (k + 1) hk
  have hround := le_roundUp c.size 4 (by decide)
  dsimp only
  omega

/-- The addresses of a load and of the slot behind it. -/
theorem address_eq (h : LoadsFit config program c sites) {k : Nat} (hk : k ∈ program.probeSlots) :
    (c.address k).toNat = c.image.base.toNat + c.offset k ∧
      (c.address (k + 1)).toNat = c.image.base.toNat + c.offset (k + 1) := by
  obtain ⟨site, hsite, dst, _, hsize, hlt, _⟩ := (exists_mem_of_forall₂ h.loads).1 k hk
  have hend := h.offset_le_size (k + 1) hsize
  have hround := le_roundUp c.size 4 (by decide)
  have hhalf := h.half (List.ne_nil_of_mem hsite)
  have hpos : 0 < sites.length := List.length_pos_of_mem hsite
  have hentry : exceptionEntrySize = 12 := rfl
  rw [hentry] at hhalf
  unfold CompiledProgram.address
  rw [UInt64.toNat_ofNat', UInt64.toNat_ofNat', Nat.mod_eq_of_lt (by omega),
    Nat.mod_eq_of_lt (by omega)]
  exact ⟨rfl, rfl⟩

/-- Two loads have two addresses. -/
theorem address_inj (h : LoadsFit config program c sites) {j k : Nat}
    (hj : j ∈ program.probeSlots) (hk : k ∈ program.probeSlots) (heq : c.address j = c.address k) :
    j = k := by
  obtain ⟨_, _, _, _, hjsize, hjlt, _⟩ := (exists_mem_of_forall₂ h.loads).1 j hj
  obtain ⟨_, _, _, _, hksize, hklt, _⟩ := (exists_mem_of_forall₂ h.loads).1 k hk
  have hsum := congrArg UInt64.toNat heq
  rw [(h.address_eq hj).1, (h.address_eq hk).1] at hsum
  rcases Nat.lt_trichotomy j k with hlt | rfl | hlt
  · have hle := h.offset_le (j + 1) k hlt (by omega)
    omega
  · rfl
  · have hle := h.offset_le (k + 1) j hlt (by omega)
    omega

/-- The addresses of the records are the addresses of the loads. -/
theorem map_sites (h : LoadsFit config program c sites) :
    sites.map (fun site => UInt64.ofNat (c.image.base.toNat + site.offset)) =
      program.probeSlots.map c.address := by
  have hloads := h.loads
  clear h
  generalize program.probeSlots = slots at hloads ⊢
  induction hloads with
  | nil => rfl
  | cons hload _ ih =>
    obtain ⟨dst, _, _, _, rfl⟩ := hload
    rw [List.map_cons, List.map_cons, ih]
    rfl

/-- The record at the address of a load is the record of the load. -/
theorem loadAt?_load (h : LoadsFit config program c sites) {k : Nat} (hk : k ∈ program.probeSlots) :
    ∃ site, IsLoad config program c k site ∧
      ExceptionTable.loadAt? c.image.base.toNat sites (c.address k) = some site := by
  obtain ⟨own, hown, dst, hdst, hsize, hlt, heq⟩ := (exists_mem_of_forall₂ h.loads).1 k hk
  have hsome : (ExceptionTable.loadAt? c.image.base.toNat sites (c.address k)).isSome := by
    refine List.find?_isSome.mpr ⟨own, hown, ?_⟩
    rw [heq, (h.address_eq hk).1]
    exact beq_self_eq_true _
  obtain ⟨site, hsite⟩ := Option.isSome_iff_exists.mp hsome
  obtain ⟨hmem, hip⟩ := ExceptionTable.loadAt?_eq_some hsite
  obtain ⟨j, hj, hload⟩ := (exists_mem_of_forall₂ h.loads).2 site hmem
  have haddress : c.address j = c.address k := by
    obtain ⟨_, _, _, _, rfl⟩ := hload
    exact UInt64.toNat_inj.mp ((h.address_eq hj).1.trans hip)
  obtain rfl := h.address_inj hj hk haddress
  exact ⟨site, hload, hsite⟩

/-- No record has the address of no load. -/
theorem loadAt?_other (h : LoadsFit config program c sites) {ip : Address}
    (hip : ∀ k ∈ program.probeSlots, ip ≠ c.address k) :
    ExceptionTable.loadAt? c.image.base.toNat sites ip = none := by
  refine List.find?_eq_none.mpr fun site hsite hfound => ?_
  obtain ⟨k, hk, dst, _, _, _, rfl⟩ := (exists_mem_of_forall₂ h.loads).2 site hsite
  exact hip k hk (UInt64.toNat_inj.mp ((h.address_eq hk).1.trans (beq_iff_eq.mp hfound)).symm)

end LoadsFit

/-- A program finalized in memory filled with traps has an exact exception table. -/
theorem exactExceptions_of_finalize {config : Config} {program : Program}
    {resolve : CallSite → Option Address} {tables : Array Table} {asked : Option Nat}
    {layout : Layout} {passes : Nat} {image : Image} {padding : Bool} {out : PassOutput}
    {c : CompiledProgram} (htraps : image.bytes = Array.replicate image.size trapByte)
    (hrun : (sourceOf config program resolve).run layout.offsets (some image.base) padding = .ok out)
    (hcheck : checkFinal layout out = .ok ())
    (h : (finalize program tables asked layout passes image out).outcome = .ok (.compiled c))
    (hhalf : c.image.InOneHalf) : ExactExceptions config program c := by
  obtain ⟨e, done, he, rfl, hw, _⟩ := emits_of_finalize hrun hcheck h
  have hexceptions := exceptions_of_finalize h hw
  obtain ⟨hcount, hentries, haddr, hroom, hbehind⟩ := writeImage_table hw
  have hblock := (writeImage_eq_ok hw).1
  obtain ⟨hbase, hsize⟩ := he.image_block
  rw [hblock.base_eq] at hbase
  rw [hblock.size_eq] at hsize
  rw [← hexceptions, he.size_eq] at hentries hbehind hroom
  rw [← hexceptions, he.size_eq, ← hbase] at haddr
  rw [← hsize] at hroom
  have hlength := ExceptionTable.length_exceptionEntries hentries
  obtain ⟨_, hmono, hlast, _⟩ := he.offset_map
  obtain ⟨hcodeLength, hcode⟩ := he.code_eq_take
  have hfit : LoadsFit config program c e.out.probes := {
    loads := he.isLoad_probes hcount
    offset_le := hmono
    offset_le_size := fun i hi => by
      have hle := hmono i program.size hi (Nat.le_refl _)
      rw [← hcodeLength, ← hlast]
      exact hle
    half := fun hne => by
      have hle := hroom (by
        intro hnil
        rw [hnil, List.length_nil] at hlength
        exact hne (List.eq_nil_of_length_eq_zero hlength.symm))
      rw [hlength] at hle
      unfold Image.InOneHalf at hhalf
      omega }
  exact {
    slots_sorted := pairwise_probeSlotsFrom 0 program.insns
    mem_slots := fun k => Program.mem_probeSlots_iff_visits (he.length_probeSteps hcount)
    length_eq := by rw [hlength, ← hfit.loads.length_eq]
    addr_eq := haddr
    address_eq := fun k hk => hfit.address_eq hk
    loads_eq := by
      rw [ExceptionTable.loads, haddr,
        ExceptionTable.loadsFrom_entries hfit.fits.addressable hentries, hfit.map_sites]
    search_load := fun k hk => by
      obtain ⟨site, ⟨dst, hdst, _, hlt, rfl⟩, hfind⟩ := hfit.loadAt?_load hk
      refine ⟨dst, hdst, ?_⟩
      rw [ExceptionTable.search, haddr, ExceptionTable.searchFrom_entries hfit.fits.addressable
        hentries fun _ => hfit.fits.resume_lt, hfind, Option.map_some, (hfit.address_eq hk).1,
        CompiledProgram.address]
      dsimp only
      rw [Nat.add_assoc, Nat.add_sub_cancel' (Nat.le_of_lt hlt)]
    search_other := fun ip hip => by
      rw [ExceptionTable.search, haddr, ExceptionTable.searchFrom_entries hfit.fits.addressable
        hentries fun _ => hfit.fits.resume_lt, hfit.loadAt?_other hip, Option.map_none]
    room := hroom
    image_eq := by
      refine ⟨hcodeLength, ?_⟩
      have hbytes : c.image.bytes.toList.length = c.image.size := Array.length_toList
      rw [← hbytes]
      rw [← hcodeLength] at hcode hbehind ⊢
      refine eq_code_table (le_roundUp _ _ (by decide)) hcode fun i hi hlt => ?_
      rw [hbytes, hsize] at hlt
      rw [Array.getElem?_toList, he.image_frame (he.not_covers_behind (by omega)), hbehind i hi,
        ExceptionEntry.length_flatMap_bytes, htraps, Array.getElem?_replicate, if_pos hlt] }

/-- A failure of other stages is no wrong count of loads. -/
theorem Failure.From.ne_probeCount {stages : List Stage} {f : Failure Error} (h : f.From stages)
    (hstages : Stage.count ∉ stages) (emitted declared : Nat) :
    f ≠ .reported (.internal (.probeCount emitted declared)) := by
  rintro rfl
  exact hstages h

/-- The program that a compiled program came from has an exact exception table. -/
theorem Compiles.exactExceptions {config : Config} {program : Program} {c : CompiledProgram}
    (h : Compiles config program c) (hhalf : c.image.InOneHalf) :
    ExactExceptions config program c := by
  cases h with
  | @atOnce resolve tables alloc _ h =>
    rcases compile_cases config program resolve tables alloc with ⟨f, hf, _⟩ | ⟨p, hp⟩ |
      ⟨settled, asked, image, out, htraps, hrun, hcheck, heq⟩
    · rw [h] at hf
      cases hf
    · rw [h] at hp
      cases hp
    · rw [heq] at h
      exact exactExceptions_of_finalize htraps hrun hcheck h hhalf
  | @later _ resolve' _ tables' _ p asked _ h h' =>
    obtain ⟨hconfig, hframe, _, _, size, hallocate⟩ := compile_pending h
    rcases finish_cases p program resolve' tables' asked with ⟨f, hf, _⟩ | ⟨out, hrun, hcheck, heq⟩
    · rw [h'] at hf
      cases hf
    · rw [heq] at h'
      rw [hconfig, hframe] at hrun
      exact exactExceptions_of_finalize (allocate_eq_ok hallocate) hrun hcheck h' hhalf

/-- Every compiled program in one half of the address space has an exact exception table behind its
code: one entry for each fault-tolerant load, found at the address of the load and nowhere else,
that leads to the end of the load and to the register slot of its destination. -/
theorem exception_table_exact (config : Config) (program : Program) :
    (∀ c, Compiles config program c → c.image.InOneHalf → ExactExceptions config program c) ∧
    (program.HidesNoProbe → ∀ emitted declared,
      (∀ resolve tables alloc, (compile config program resolve tables alloc).outcome ≠
        .error (.reported (.internal (.probeCount emitted declared)))) ∧
      ∀ p : PendingProgram, ∀ resolve tables asked,
        (p.finish program resolve tables asked).outcome ≠
          .error (.reported (.internal (.probeCount emitted declared)))) := by
  refine ⟨fun c h hhalf => h.exactExceptions hhalf, fun hhides emitted declared =>
    ⟨fun resolve tables alloc hd => ?_, fun p resolve tables asked hd => ?_⟩⟩
  · rcases compile_cases config program resolve tables alloc with ⟨f, hf, hfrom⟩ | ⟨p, hp⟩ |
      ⟨settled, asked, image, out, _, hrun, _, heq⟩
    · rw [hd] at hf
      exact hfrom.ne_probeCount (by decide) _ _ (Except.error.inj hf).symm
    · rw [hd] at hp
      cases hp
    · have hcount := PassOutput.length_probes hhides hrun
      rw [heq] at hd
      have hfrom := finalize_failsOnly_of_count hcount _ _ _ _ _ _ hd
      exact hfrom.ne_probeCount (by decide) _ _ rfl
  · rcases finish_cases p program resolve tables asked with ⟨f, hf, hfrom⟩ | ⟨out, hrun, _, heq⟩
    · rw [hd] at hf
      exact hfrom.ne_probeCount (by decide) _ _ (Except.error.inj hf).symm
    · have hcount := PassOutput.length_probes hhides hrun
      rw [heq] at hd
      have hfrom := finalize_failsOnly_of_count hcount _ _ _ _ _ _ hd
      exact hfrom.ne_probeCount (by decide) _ _ rfl

/-- A wide load, two fault-tolerant loads with a plain one between them, and an exit. -/
def probingProgram : Program where
  name := "probing"
  insns := [⟨0x18, 1, 0, 0, 7⟩, ⟨0, 0, 0, 0, 1⟩, ⟨0x39, 2, 1, 8, 0⟩, ⟨0x79, 3, 1, 0, 0⟩,
    ⟨0x51, 7, 1, -300, 0⟩, ⟨0x95, 0, 0, 0, 0⟩]
  descriptors := []

/-- The table of the program has two entries, for its slots two and four. -/
theorem exception_table_probingProgram :
    ∃ c, (compile {} probingProgram (fun _ => none) #[] fun size =>
        .ok (.blank 0x7000 size)).outcome = .ok (.compiled c) ∧ c.image.InOneHalf ∧
      probingProgram.HidesNoProbe ∧ ExactExceptions {} probingProgram c ∧
      c.exceptions.entries.length = 2 ∧
      c.exceptions.loads = (.ok [c.address 2, c.address 4] : Result Error _) ∧
      c.exceptions.search (c.address 3) = (.ok none : Result Error _) ∧
      (compile {} probingProgram (fun _ => none) #[] fun size =>
        .ok (.blank 0x7000 size)).outcome ≠ .error (.reported (.internal (.probeCount 1 2))) := by
  have hcompile : (compile {} probingProgram (fun _ => none) #[] fun size =>
      .ok (.blank 0x7000 size)).program?.map (fun c => (decide c.image.InOneHalf,
        probingProgram.probeSlots, [c.address 2, c.address 3, c.address 4])) =
      some (true, [2, 4], [0x7017, 0x701B, 0x701F]) := by
    decide +kernel
  obtain ⟨c, hc, hshape⟩ := Option.map_eq_some_iff.mp hcompile
  obtain ⟨hhalf, hshape⟩ := Prod.mk.inj hshape
  obtain ⟨hslots, haddresses⟩ := Prod.mk.inj hshape
  have hcompiled := Compilation.program?_eq_some.mp hc
  have hhides : probingProgram.HidesNoProbe := by decide +kernel
  obtain ⟨hexact, hcount⟩ := exception_table_exact {} probingProgram
  have htable := hexact c (.atOnce hcompiled) (of_decide_eq_true hhalf)
  refine ⟨c, hcompiled, of_decide_eq_true hhalf, hhides, htable, ?_, ?_, ?_,
    (hcount hhides 1 2).1 _ _ _⟩
  · rw [htable.length_eq, hslots]
    rfl
  · rw [htable.loads_eq, hslots]
    rfl
  · refine htable.search_other _ fun k hk => ?_
    simp only [List.cons.injEq, and_true] at haddresses
    rw [hslots, List.mem_cons, List.mem_singleton] at hk
    rcases hk with rfl | rfl
    · rw [haddresses.1, haddresses.2.1]
      decide
    · rw [haddresses.2.1, haddresses.2.2]
      decide

end NativeForge
