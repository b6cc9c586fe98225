import NativeForge.ExceptionTable
import NativeForge.Proofs.SiteAgreement

/-!
# Building and searching exception tables

An exception table is built from a row of loads and searched by address. The two are inverse: a
search in the table of a row finds the first load at the address, whatever the order of the loads
and however many of them share an offset, and nothing at any other address. A row has a table if
each of its loads can have an entry at its place, and otherwise fails as the first that cannot.

Offsets and addresses are 64-bit words, and the distance from an entry to its load is a difference
of their signed readings. It is the plain difference of the offsets wherever that is a signed word.
-/

namespace NativeForge

namespace ProbeSite

/-- A length below 256 and a register slot share a word without overlap. -/
theorem fixup_eq_ok {site : ProbeSite} {word : UInt32} (h : site.fixup = .ok word) :
    word.toNat = site.slot.toNat * 256 + site.size ∧ site.size < 256 := by
  unfold fixup at h
  split at h
  · exact absurd h (defect_ne_ok _ _)
  · obtain rfl := Except.ok.inj h
    have hsize : site.size < 2 ^ 8 := by omega
    have hslot := site.slot.toNat_lt
    refine ⟨?_, hsize⟩
    rw [UInt32.toNat_or, UInt32.toNat_shiftLeft, UInt8.toNat_toUInt32, UInt32.toNat_ofNat',
      Nat.mod_eq_of_lt (by omega : site.size < 2 ^ 32), Nat.or_comm]
    have hshift : (UInt32.toNat 8) % 32 = 8 := rfl
    rw [hshift, Nat.mod_eq_of_lt (by rw [Nat.shiftLeft_eq]; omega),
      ← Nat.shiftLeft_add_eq_or_of_lt hsize, Nat.shiftLeft_eq]

/-- The distance from an entry to a load, both offsets read as signed words. -/
def distance (site : ProbeSite) (entryOffset : Nat) : Int :=
  Address.signed (UInt64.ofNat site.offset) - Address.signed (UInt64.ofNat entryOffset)

/-- The offset of the entry is a word, and its distance to the load a signed one. -/
def InWords (site : ProbeSite) (entryOffset : Nat) : Prop :=
  entryOffset < 2 ^ 64 ∧
    -(2 ^ 63) ≤ site.distance entryOffset ∧ site.distance entryOffset < 2 ^ 63

/-- The distance from the entry to the load fits four bytes. -/
def InReach (site : ProbeSite) (entryOffset : Nat) : Prop :=
  -(2 ^ 31) ≤ site.distance entryOffset ∧ site.distance entryOffset < 2 ^ 31

instance (site : ProbeSite) (entryOffset : Nat) : Decidable (site.InWords entryOffset) :=
  inferInstanceAs (Decidable (_ ∧ _))

instance (site : ProbeSite) (entryOffset : Nat) : Decidable (site.InReach entryOffset) :=
  inferInstanceAs (Decidable (_ ∧ _))

/-- A load has an entry at an offset. -/
structure Encodable (site : ProbeSite) (entryOffset : Nat) : Prop where
  /-- No word overflows. -/
  words : site.InWords entryOffset
  /-- The distance fits its field. -/
  reach : site.InReach entryOffset
  /-- The length fits its field. -/
  size_le : site.size ≤ 255

/-- How a load fails to have an entry at an offset. The distance is judged before the length. -/
inductive Fails (site : ProbeSite) (entryOffset : Nat) : Failure Error → Prop where
  /-- A word overflows. -/
  | overflow (hwords : ¬site.InWords entryOffset) : Fails site entryOffset .crash
  /-- The distance does not fit its field. -/
  | distance (hwords : site.InWords entryOffset) (hreach : ¬site.InReach entryOffset) :
    Fails site entryOffset
      (.reported (.outOfRange .exceptionDelta (site.distance entryOffset)))
  /-- The length does not fit its field. -/
  | length (hwords : site.InWords entryOffset) (hreach : site.InReach entryOffset)
    (hsize : 255 < site.size) :
    Fails site entryOffset (.reported (.internal (.fixupLength site.size)))

/-- Words in the lower half are their own signed reading, those in the upper half are negative. -/
theorem signed_ofNat {n : Nat} (hn : n < 2 ^ 64) :
    Address.signed (UInt64.ofNat n) = if n < 2 ^ 63 then (n : Int) else n - 2 ^ 64 := by
  rw [Address.signed_eq, UInt64.toNat_ofNat', Nat.mod_eq_of_lt hn]

/-- The distance is the plain difference of the offsets where that is a signed word. -/
theorem distance_eq_sub {site : ProbeSite} {entryOffset : Nat} (h : site.InWords entryOffset)
    (hoffset : site.offset < 2 ^ 64)
    (hle : -(2 ^ 63) ≤ (site.offset : Int) - entryOffset)
    (hlt : (site.offset : Int) - entryOffset < 2 ^ 63) :
    site.distance entryOffset = site.offset - entryOffset := by
  obtain ⟨hentry, hrange⟩ := h
  unfold distance at hrange ⊢
  rw [signed_ofNat hoffset, signed_ofNat hentry] at hrange ⊢
  split at hrange <;> split at hrange <;> omega

/-- The entry of a load whose words do not overflow. -/
theorem InWords.entry_eq {site : ProbeSite} {entryOffset : Nat} (h : site.InWords entryOffset) :
    site.entry entryOffset =
      if fitsInt32 (site.distance entryOffset) then do
        let fixup ← site.fixup
        return { delta := Int32.ofInt (site.distance entryOffset), fixup := fixup }
      else outOfRange .exceptionDelta (site.distance entryOffset) := by
  have hdistance : (Address.distance (UInt64.ofNat site.offset) (UInt64.ofNat entryOffset) :
      Result Error Int) = .ok (site.distance entryOffset) := signedWord64_eq_ok.mpr ⟨h.2, rfl⟩
  unfold entry
  rw [word64_eq_ok.mpr ⟨h.1, rfl⟩]
  change (Address.distance (UInt64.ofNat site.offset) (UInt64.ofNat entryOffset) >>= _) = _
  rw [hdistance]
  rfl

/-- What the entry of a load holds. -/
theorem entry_eq_ok {site : ProbeSite} {entryOffset : Nat} {e : ExceptionEntry}
    (h : site.entry entryOffset = .ok e) :
    site.Encodable entryOffset ∧ e.delta.toInt = site.distance entryOffset ∧
      e.skip.toNat = site.size ∧ e.slot = site.slot.toUInt32 := by
  have hwords : site.InWords entryOffset := by
    obtain ⟨n, hn, h⟩ := bind_eq_ok.mp h
    obtain ⟨hlt, rfl⟩ := word64_eq_ok.mp hn
    obtain ⟨delta, hd, _⟩ := bind_eq_ok.mp h
    exact ⟨hlt, (signedWord64_eq_ok.mp hd).1⟩
  rw [hwords.entry_eq] at h
  split at h
  · rename_i hfits
    obtain ⟨word, hw, h⟩ := bind_eq_ok.mp h
    obtain rfl := pure_eq_ok.mp h
    have hrange := fitsInt32_iff.mp hfits
    obtain ⟨hword, hsize⟩ := fixup_eq_ok hw
    refine ⟨⟨hwords, hrange, by omega⟩,
      Int32.toInt_ofInt_of_le (by omega) (by omega), ?_, ?_⟩
    · show (word &&& 0xFF).toUInt8.toNat = site.size
      rw [UInt32.toNat_toUInt8, UInt32.toNat_and, hword]
      have hmask : UInt32.toNat 0xFF = 2 ^ 8 - 1 := rfl
      rw [hmask, Nat.and_two_pow_sub_one_eq_mod]
      omega
    · apply UInt32.toNat_inj.mp
      show (word >>> 8).toNat = _
      rw [UInt32.toNat_shiftRight, hword, UInt8.toNat_toUInt32]
      have hshift : (UInt32.toNat 8) % 32 = 8 := rfl
      rw [hshift, Nat.shiftRight_eq_div_pow]
      omega
  · exact absurd h (outOfRange_ne_ok _ _ _)

/-- A load that can have an entry has one. -/
theorem Encodable.exists_entry {site : ProbeSite} {entryOffset : Nat}
    (h : site.Encodable entryOffset) : ∃ e, site.entry entryOffset = .ok e := by
  have hsize := h.size_le
  have hfixup : site.fixup = .ok (UInt32.ofNat site.size ||| (site.slot.toUInt32 <<< 8)) :=
    if_neg (by omega)
  rw [h.words.entry_eq, if_pos (fitsInt32_iff.mpr h.reach), hfixup]
  exact ⟨_, rfl⟩

/-- A load that fails to have an entry gives that failure. -/
theorem Fails.entry_eq {site : ProbeSite} {entryOffset : Nat} {f : Failure Error}
    (h : site.Fails entryOffset f) : site.entry entryOffset = .error f := by
  cases h with
  | overflow hwords =>
    by_cases hlt : entryOffset < 2 ^ 64
    · have hdistance : (Address.distance (UInt64.ofNat site.offset) (UInt64.ofNat entryOffset) :
          Result Error Int) = crash := if_neg fun hrange => hwords ⟨hlt, hrange⟩
      refine bind_eq_error.mpr (.inr ⟨_, word64_eq_ok.mpr ⟨hlt, rfl⟩, ?_⟩)
      exact bind_eq_error.mpr (.inl hdistance)
    · exact bind_eq_error.mpr (.inl (if_neg hlt))
  | distance hwords hreach =>
    rw [hwords.entry_eq, if_neg fun hfits => hreach (fitsInt32_iff.mp hfits)]
    rfl
  | length hwords hreach hsize =>
    have hfixup : site.fixup = defect (.fixupLength site.size) := if_pos hsize
    rw [hwords.entry_eq, if_pos (fitsInt32_iff.mpr hreach), hfixup]
    rfl

/-- A load has an entry or a reason for having none. -/
theorem encodable_or_fails (site : ProbeSite) (entryOffset : Nat) :
    site.Encodable entryOffset ∨ ∃ f, site.Fails entryOffset f := by
  by_cases hwords : site.InWords entryOffset
  · by_cases hreach : site.InReach entryOffset
    · by_cases hsize : 255 < site.size
      · exact .inr ⟨_, .length hwords hreach hsize⟩
      · exact .inl ⟨hwords, hreach, by omega⟩
    · exact .inr ⟨_, .distance hwords hreach⟩
  · exact .inr ⟨_, .overflow hwords⟩

/-- Which loads have an entry. -/
theorem exists_entry_iff {site : ProbeSite} {entryOffset : Nat} :
    (∃ e, site.entry entryOffset = .ok e) ↔ site.Encodable entryOffset := by
  refine ⟨?_, Encodable.exists_entry⟩
  rintro ⟨e, he⟩
  exact (entry_eq_ok he).1

/-- How a load fails to have an entry. -/
theorem entry_eq_error_iff {site : ProbeSite} {entryOffset : Nat} {f : Failure Error} :
    site.entry entryOffset = .error f ↔ site.Fails entryOffset f := by
  refine ⟨fun h => ?_, Fails.entry_eq⟩
  rcases site.encodable_or_fails entryOffset with hok | ⟨f', hf⟩
  · obtain ⟨e, he⟩ := hok.exists_entry
    rw [he] at h
    cases h
  · rw [hf.entry_eq] at h
    cases h
    exact hf

end ProbeSite

/-- The entries of a row of loads are made in order, twelve bytes apart. -/
theorem exceptionEntries_inOrder :
    InOrder (fun offset (site : ProbeSite) => site.entry offset) exceptionEntrySize
      exceptionEntries :=
  ⟨fun _ => rfl, fun _ _ _ => rfl⟩

namespace ExceptionTable

variable {base : Nat}

/-- Where a row of loads and its entries may lie, so that the way from each entry to its load
overflows nowhere. -/
structure Addressable (base offset : Nat) (sites : List ProbeSite) : Prop where
  /-- The addresses of the entries are words. -/
  entry_lt : ∀ i, i < sites.length → base + (offset + i * exceptionEntrySize) < 2 ^ 64
  /-- The addresses of the loads are words. -/
  load_lt : ∀ site ∈ sites, base + site.offset < 2 ^ 64
  /-- The address of an entry, read as a signed word, and its distance have a signed word as their
  sum. -/
  sum_range : ∀ i site, sites[i]? = some site →
    -(2 ^ 63) ≤ Address.signed (UInt64.ofNat (base + (offset + i * exceptionEntrySize))) +
        site.distance (offset + i * exceptionEntrySize) ∧
      Address.signed (UInt64.ofNat (base + (offset + i * exceptionEntrySize))) +
        site.distance (offset + i * exceptionEntrySize) < 2 ^ 63

/-- Behind the first entry, the others are addressable. -/
theorem Addressable.tail {offset : Nat} {site : ProbeSite} {rest : List ProbeSite}
    (h : Addressable base offset (site :: rest)) :
    Addressable base (offset + exceptionEntrySize) rest := by
  refine ⟨fun i hi => ?_, fun s hs => h.load_lt s (List.mem_cons_of_mem _ hs), fun i s hs => ?_⟩
  · rw [← InOrder.number_succ]
    exact h.entry_lt (i + 1) (Nat.succ_lt_succ hi)
  · rw [← InOrder.number_succ]
    exact h.sum_range (i + 1) s hs

/-- A signed word that is a number up to whole rounds is read as that number. -/
theorem toUInt64_ofInt_of_emod {v : Int} {n : Nat} (h : v % 2 ^ 64 = (n % 2 ^ 64 : Nat)) :
    (Int64.ofInt v).toUInt64 = UInt64.ofNat n := by
  apply UInt64.toNat_inj.mp
  have hv : (Int64.ofInt v).toUInt64.toNat = (v % 2 ^ 64).toNat := BitVec.toNat_ofInt v
  rw [hv, h, UInt64.toNat_ofNat', Int.toNat_natCast]

/-- The first entry leads back to its load. -/
theorem Addressable.loadAddress {ε : Type} {offset : Nat} {site : ProbeSite}
    {rest : List ProbeSite} {e : ExceptionEntry} (h : Addressable base offset (site :: rest))
    (he : site.entry offset = .ok e) :
    (loadAddress (base + offset) e : Result ε Address) =
      .ok (UInt64.ofNat (base + site.offset)) := by
  obtain ⟨hencodable, hdelta, _, _⟩ := ProbeSite.entry_eq_ok he
  have hentry := h.entry_lt 0 (Nat.succ_pos _)
  have hload := h.load_lt site (List.mem_cons_self ..)
  have hsum := h.sum_range 0 site rfl
  rw [Nat.zero_mul, Nat.add_zero] at hentry hsum
  unfold ExceptionTable.loadAddress
  refine bind_eq_ok.mpr ⟨base + offset, word64_eq_ok.mpr ⟨hentry, rfl⟩, ?_⟩
  rw [hdelta]
  refine bind_eq_ok.mpr ⟨_, signedWord64_eq_ok.mpr ⟨hsum, rfl⟩, ?_⟩
  refine congrArg Except.ok (toUInt64_ofInt_of_emod ?_)
  -- The three signed readings differ from the plain sum by whole rounds only.
  unfold ProbeSite.distance
  rw [ProbeSite.signed_ofNat hentry, ProbeSite.signed_ofNat (by omega : offset < 2 ^ 64),
    ProbeSite.signed_ofNat (by omega : site.offset < 2 ^ 64)]
  split <;> split <;> split <;> omega

/-- The entries of a row of loads: the entry of the first one and the entries of the others. -/
theorem exceptionEntries_cons {offset : Nat} {site : ProbeSite} {rest : List ProbeSite}
    {entries : List ExceptionEntry} (h : exceptionEntries offset (site :: rest) = .ok entries) :
    ∃ e tail, site.entry offset = .ok e ∧
      exceptionEntries (offset + exceptionEntrySize) rest = .ok tail ∧ entries = e :: tail := by
  obtain ⟨e, he, h⟩ := bind_eq_ok.mp h
  obtain ⟨tail, ht, h⟩ := bind_eq_ok.mp h
  exact ⟨e, tail, he, ht, (pure_eq_ok.mp h).symm⟩

/-- A row of loads has one entry each. -/
theorem length_exceptionEntries {offset : Nat} {sites : List ProbeSite}
    {entries : List ExceptionEntry} (h : exceptionEntries offset sites = .ok entries) :
    entries.length = sites.length := by
  induction sites generalizing offset entries with
  | nil =>
    cases h
    rfl
  | cons site rest ih =>
    obtain ⟨e, tail, _, ht, rfl⟩ := exceptionEntries_cons h
    rw [List.length_cons, List.length_cons, ih ht]

/-- The entries of a row of loads cover the loads in order. -/
theorem loadsFrom_entries {ε : Type} {offset : Nat} {sites : List ProbeSite}
    {entries : List ExceptionEntry} (hsites : Addressable base offset sites)
    (h : exceptionEntries offset sites = .ok entries) :
    (loadsFrom (base + offset) entries : Result ε (List Address)) =
      .ok (sites.map fun site => UInt64.ofNat (base + site.offset)) := by
  induction sites generalizing offset entries with
  | nil =>
    cases h
    rfl
  | cons site rest ih =>
    obtain ⟨e, tail, he, ht, rfl⟩ := exceptionEntries_cons h
    have hrest := ih hsites.tail ht
    rw [← Nat.add_assoc] at hrest
    exact bind_eq_ok.mpr ⟨_, hsites.loadAddress he, bind_eq_ok.mpr ⟨_, hrest, rfl⟩⟩

/-- The first load of a row at an address, in a block that starts at `base`. -/
def loadAt? (base : Nat) (sites : List ProbeSite) (ip : Address) : Option ProbeSite :=
  sites.find? fun site => base + site.offset == ip.toNat

/-- A load found at an address is a load of the row and stands there. -/
theorem loadAt?_eq_some {sites : List ProbeSite} {ip : Address} {site : ProbeSite}
    (h : loadAt? base sites ip = some site) : site ∈ sites ∧ base + site.offset = ip.toNat := by
  have hfound := List.find?_some h
  exact ⟨List.mem_of_find?_eq_some h, beq_iff_eq.mp hfound⟩

/-- A search among the entries of a row of loads finds the first load at the address. -/
theorem searchFrom_entries {ε : Type} {offset : Nat} {sites : List ProbeSite}
    {entries : List ExceptionEntry} (hsites : Addressable base offset sites)
    (h : exceptionEntries offset sites = .ok entries) {ip : Address}
    (hresume : ∀ site, loadAt? base sites ip = some site → ip.toNat + site.size < 2 ^ 64) :
    (searchFrom ip (base + offset) entries : Result ε (Option Fixup)) =
      .ok ((loadAt? base sites ip).map fun site =>
        ⟨UInt64.ofNat (ip.toNat + site.size), site.slot.toUInt32⟩) := by
  induction sites generalizing offset entries with
  | nil =>
    cases h
    rfl
  | cons site rest ih =>
    obtain ⟨e, tail, he, ht, rfl⟩ := exceptionEntries_cons h
    have hload := hsites.load_lt site (List.mem_cons_self ..)
    have hword : (UInt64.ofNat (base + site.offset)).toNat = base + site.offset := by
      rw [UInt64.toNat_ofNat', Nat.mod_eq_of_lt hload]
    refine bind_eq_ok.mpr ⟨_, hsites.loadAddress he, ?_⟩
    by_cases hip : base + site.offset = ip.toNat
    · have hfirst : loadAt? base (site :: rest) ip = some site :=
        List.find?_cons_of_pos (beq_iff_eq.mpr hip)
      obtain ⟨_, _, hskip, hslot⟩ := ProbeSite.entry_eq_ok he
      have hplus : (ip.plus e.skip.toNat : Result ε Address) =
          .ok (UInt64.ofNat (ip.toNat + site.size)) := by
        rw [hskip]
        exact if_pos (hresume site hfirst)
      rw [if_pos (UInt64.toNat_inj.mp (hword.trans hip)), hfirst]
      refine bind_eq_ok.mpr ⟨_, hplus, ?_⟩
      rw [hslot]
      rfl
    · have hother : loadAt? base (site :: rest) ip = loadAt? base rest ip :=
        List.find?_cons_of_neg (by simpa using hip)
      have hrest := ih hsites.tail ht (by rwa [hother] at hresume)
      rw [← Nat.add_assoc] at hrest
      rw [if_neg fun heq => hip (hword.symm.trans (congrArg UInt64.toNat heq)), hother]
      exact hrest

end ExceptionTable

/-- A row of loads has a table if each of them can have an entry at its place; otherwise it fails as
the first load that cannot. A search at any address gives the end and the register slot of the first
load at that address, and nothing if no load is there. -/
theorem exception_search_inverts_build (offset : Nat) (sites : List ProbeSite) :
    ((∃ entries, exceptionEntries offset sites = .ok entries) ↔
      ∀ (i : Nat) (site : ProbeSite), sites[i]? = some site →
        site.Encodable (offset + i * exceptionEntrySize)) ∧
    (∀ failure, exceptionEntries offset sites = .error failure ↔
      ∃ (i : Nat) (site : ProbeSite), sites[i]? = some site ∧
        site.Fails (offset + i * exceptionEntrySize) failure ∧
        ∀ j < i, ∀ earlier : ProbeSite, sites[j]? = some earlier →
          earlier.Encodable (offset + j * exceptionEntrySize)) ∧
    (∀ site ∈ sites, ∀ entryOffset, site.InWords entryOffset → site.offset < 2 ^ 64 →
      -(2 ^ 63) ≤ (site.offset : Int) - entryOffset → (site.offset : Int) - entryOffset < 2 ^ 63 →
      site.distance entryOffset = site.offset - entryOffset) ∧
    ∀ (base : Address) (table : ExceptionTable), table.addr.toNat = base.toNat + offset →
      exceptionEntries offset sites = .ok table.entries →
      ExceptionTable.Addressable base.toNat offset sites → ∀ ip : Address,
      (∀ site, ExceptionTable.loadAt? base.toNat sites ip = some site →
        ip.toNat + site.size < 2 ^ 64) →
      table.search ip = (.ok ((ExceptionTable.loadAt? base.toNat sites ip).map fun site =>
        ⟨UInt64.ofNat (ip.toNat + site.size), site.slot.toUInt32⟩) : Result Error _) := by
  refine ⟨?_, fun failure => ?_, fun site _ entryOffset => ProbeSite.distance_eq_sub,
    fun base table haddr hentries hsites ip hresume => ?_⟩
  · rw [exceptionEntries_inOrder.exists_eq_ok_iff]
    simp only [ProbeSite.exists_entry_iff]
  · rw [exceptionEntries_inOrder.eq_error_iff]
    simp only [ProbeSite.exists_entry_iff, ProbeSite.entry_eq_error_iff]
  · rw [ExceptionTable.search, haddr]
    exact ExceptionTable.searchFrom_entries hsites hentries hresume

/-- Two loads at one offset, with another one between them that stands before both. -/
def doubledLoads : List ProbeSite := [⟨0x18, 5, 8⟩, ⟨0x10, 4, 13⟩, ⟨0x18, 7, 2⟩]

/-- The first of two loads at one offset is found. A fourth load, too far away and too long, is
refused for its distance. -/
theorem exception_search_doubledLoads :
    ExceptionTable.Addressable (0x1000 : Address).toNat 0x40 doubledLoads ∧
    (∃ table : ExceptionTable, table.addr = 0x1040 ∧
      exceptionEntries 0x40 doubledLoads = .ok table.entries ∧
      table.search 0x1018 = (.ok (some ⟨0x101D, 8⟩) : Result Error _) ∧
      table.search 0x1011 = (.ok none : Result Error _)) ∧
    exceptionEntries 0x40 (doubledLoads ++ [⟨0x1_0000_0000, 300, 0⟩]) =
      .error (.reported (.outOfRange .exceptionDelta (0x1_0000_0000 - 0x64))) ∧
    ProbeSite.distance ⟨0x18, 5, 8⟩ 0x40 = 0x18 - 0x40 := by
  obtain ⟨hbuild, _, hdistance, hsearch⟩ := exception_search_inverts_build 0x40 doubledLoads
  obtain ⟨_, hfail, _, _⟩ :=
    exception_search_inverts_build 0x40 (doubledLoads ++ [⟨0x1_0000_0000, 300, 0⟩])
  have hencodable : ∀ (i : Nat) (site : ProbeSite), doubledLoads[i]? = some site →
      site.Encodable (0x40 + i * exceptionEntrySize) := by
    intro i site hi
    have hlt : i < 3 := (List.getElem?_eq_some_iff.mp hi).1
    obtain rfl | rfl | rfl : i = 0 ∨ i = 1 ∨ i = 2 := by omega
    all_goals
      cases hi
      exact ⟨by decide, by decide, by decide⟩
  have haddressable : ExceptionTable.Addressable (0x1000 : Address).toNat 0x40 doubledLoads := by
    refine ⟨by decide, by decide, fun i site hi => ?_⟩
    have hlt : i < 3 := (List.getElem?_eq_some_iff.mp hi).1
    obtain rfl | rfl | rfl : i = 0 ∨ i = 1 ∨ i = 2 := by omega
    all_goals
      cases hi
      decide
  obtain ⟨entries, hentries⟩ := hbuild.mpr hencodable
  have hfound := hsearch 0x1000 ⟨0x1040, entries⟩ rfl hentries haddressable
  refine ⟨haddressable, ⟨⟨0x1040, entries⟩, rfl, hentries, ?_, ?_⟩, ?_, ?_⟩
  · refine hfound 0x1018 fun site hsite => ?_
    cases hsite
    decide
  · refine hfound 0x1011 fun site hsite => ?_
    cases hsite
  · refine (hfail _).mpr ⟨3, ⟨0x1_0000_0000, 300, 0⟩, rfl,
      .distance (by decide) (by decide), fun j hj earlier hget => ?_⟩
    rw [List.getElem?_append_left hj] at hget
    exact hencodable j earlier hget
  · exact hdistance _ (List.mem_cons_self ..) 0x40 (by decide) (by decide) (by decide) (by decide)

end NativeForge
