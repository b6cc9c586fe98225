import NativeForge.Proofs.Decoding
import NativeForge.Proofs.TableHistories
import NativeForge.Session

/-!
# Failed updates of tail-call tables

An update that reports a cause leaves every slot as it was, but not every byte. It refuses a key
that is not the table's before it does anything; when a site does not reach the new entry, the
sites before it have been repointed already and stay so. Such an update is without effect exactly
when the first site of the key is the one that does not reach the entry.
-/

namespace NativeForge

open X64 Virtual Target TailCall

/-- Different distances are different bytes. -/
theorem ofInt32_injective {v w : Int32} (h : Bytes.ofInt32 v = Bytes.ofInt32 w) : v = w := by
  have hv := readInt32_append v []
  rw [h, readInt32_append] at hv
  exact (Prod.mk.inj (Option.some.inj hv)).1.symm

/-- The bytes of a field determine its target. -/
theorem FieldContent.target_unique {ip : Address} {target target' : Option Address}
    {data : List UInt8} (h : FieldContent ip target data) (h' : FieldContent ip target' data) :
    target = target' := by
  have hjump : ∀ dest : Address, ¬EncodesJump ip dest emptyField := by
    rintro dest ⟨rel, hdata, _⟩
    exact absurd (List.cons.inj hdata).1 (by decide)
  cases target with
  | none =>
    cases target' with
    | none => rfl
    | some to' =>
      obtain rfl : data = emptyField := h
      exact absurd h' (hjump to')
  | some dest =>
    cases target' with
    | none =>
      obtain rfl : data = emptyField := h'
      exact absurd h (hjump dest)
    | some to' =>
      obtain ⟨rel, rfl, hto⟩ := h
      obtain ⟨rel', hdata, hto'⟩ := h'
      obtain rfl := ofInt32_injective (List.cons.inj hdata).2
      rw [UInt64.toNat_inj.mp (by omega : dest.toNat = to'.toNat)]

/-- A field has one target. -/
theorem FieldHolds.target_unique {read : Nat → Option UInt8} {ip : Address}
    {target target' : Option Address} (h : FieldHolds read ip target)
    (h' : FieldHolds read ip target') : target = target' := by
  obtain ⟨data, hc, hd⟩ := h
  obtain ⟨data', hc', hd'⟩ := h'
  obtain rfl := hd.unique hd' (hc.length_eq.trans hc'.length_eq.symm)
  exact hc.target_unique hc'

namespace TailCall

/-- A site shows one slot. -/
theorem PatchSite.Shows.unique {site : PatchSite} {read : Nat → Option UInt8}
    {slot slot' : Option Address} (h : site.Shows read slot) (h' : site.Shows read slot') :
    slot = slot' := by
  cases slot with
  | none =>
    cases slot' with
    | none => rfl
    | some entry' =>
      obtain ⟨_, landing, _, ht⟩ := h'
      cases h.2.target_unique ht
  | some entry =>
    obtain ⟨_, landing, hl, ht⟩ := h
    cases slot' with
    | none => cases h'.2.target_unique ht
    | some entry' =>
      obtain ⟨_, landing', hl', ht'⟩ := h'
      cases ht.target_unique ht'
      rw [UInt64.toNat_inj.mp (by omega : entry.toNat = entry'.toNat)]

/-- A site reaches the entry that it shows. -/
theorem PatchSite.Shows.reaches {site : PatchSite} {read : Nat → Option UInt8} {entry : Address}
    (h : site.Shows read (some entry)) : site.Reaches entry := by
  obtain ⟨_, landing, hl, data, hc, _⟩ := h
  exact ⟨landing, hl, data, hc⟩

/-- Where a failed update stops: at once when the key is not the table's, and else at the first site
of the key that does not reach the new entry. -/
def Table.Stops (t : Table) (key : UInt32) (entry : Option Address) (moved rest : List Tracked) :
    Prop :=
  (¬key < t.maxEntries ∧ moved = []) ∨
    (key < t.maxEntries ∧ ∃ dest x after, entry = some dest ∧ rest = x :: after ∧
      (∀ y ∈ moved, y.site.Reaches dest) ∧ ¬x.site.Reaches dest)

end TailCall

/-- What an update of a session that was not carried out comes from. -/
theorem Session.update_eq_failed {s s' : Session} {number : Nat} {t : Table} {key : UInt32}
    {entry : Option Address} {f : Failure Error} (ht : s.tables[number]? = some t)
    (h : s.update number key entry = (s', .failed f)) :
    ∃ space', t.update s.space key entry = (space', .error f) ∧
      s' = { s with space := space' } := by
  unfold Session.update at h
  rw [ht] at h
  dsimp only at h
  split at h
  · rename_i space' f' hu
    cases h
    exact ⟨space', hu, rfl⟩
  · cases h

/-- An update that reports a cause keeps all tables and repoints the sites before the one where it
stops, and no other byte changes. It changes no byte at all exactly when there is no such site. -/
theorem update_failed {s s' : Session} {number : Nat} {t : Table} {key : UInt32}
    {entry : Option Address} {cause : Error} (ht : s.tables[number]? = some t)
    (hc : t.Consistent s.space)
    (h : s.update number key entry = (s', .failed (.reported cause))) :
    s'.tables = s.tables ∧ ∃ moved rest, t.sitesOn key = moved ++ rest ∧
      t.Stops key entry moved rest ∧
      s.space.Keeps s'.space (fun a => ∃ x ∈ moved, x.site.Covers a) ∧
      (∀ x ∈ moved, x.site.Shows s'.space.byteAt entry) ∧
      ((∀ a, s'.space.byteAt a = s.space.byteAt a) ↔ moved = []) := by
  obtain ⟨space', hu, rfl⟩ := Session.update_eq_failed ht h
  refine ⟨rfl, ?_⟩
  rcases Table.update_cases hc hu (by simp) with ⟨hkey, rfl, _⟩ |
    ⟨hkey, moved, rest, hsites, hkeep, hshow, ⟨_, hr⟩ | ⟨x, after, dest, _, rfl, rfl, hfar, _⟩⟩
  · exact ⟨[], t.sitesOn key, rfl, .inl ⟨hkey, rfl⟩, .refl _ _, fun x hx => absurd hx (by simp),
      fun _ => rfl, fun _ _ => rfl⟩
  · cases hr
  · refine ⟨moved, x :: after, hsites, .inr ⟨hkey, dest, x, after, rfl, rfl, fun y hy =>
      (hshow y hy).reaches, hfar⟩, hkeep, hshow, fun hsame => ?_, fun hnone a => ?_⟩
    · -- A site that was repointed without a change already showed the new entry, and then so did
      -- all the others, which therefore reach it.
      refine List.eq_nil_iff_forall_not_mem.mpr fun y hy => ?_
      have hold : ∀ z ∈ t.sitesOn key, z.site.Shows s.space.byteAt (t.slots key) := fun z hz =>
        (Table.mem_sitesOn.mp hz).2 ▸ hc.shows z (Table.mem_sitesOn.mp hz).1
      have hnew : y.site.Shows s.space.byteAt (some dest) :=
        (hshow y hy).congr fun a _ => (hsame a).symm
      have hslot := (hold y (by rw [hsites]; simp [hy])).unique hnew
      have hx := hold x (by rw [hsites]; simp)
      rw [hslot] at hx
      exact hfar hx.reaches
    · refine hkeep.outside a ?_
      rw [hnone]
      rintro ⟨y, hy, _⟩
      cases hy

/-- A direct tail call and an exit. -/
def sharingProgram : Program where
  name := "sharing"
  insns := [⟨0xF5, 0, 0, 0, 1⟩, ⟨0x95, 0, 0, 0, 0⟩]
  descriptors := [{ table := 0, key := 0 }]

/-- Two programs call through one slot, from images that are 64 KiB apart. -/
def sharingHistory : List Action :=
  [.table 1,
    .compile {} sharingProgram (fun _ => none) fun size => .ok (.blank 0x80010000 size),
    .compile {} sharingProgram (fun _ => none) fun size => .ok (.blank 0x80020000 size)]

/-- A session in the state of a history. -/
def World.session (w : World) : Session where
  blocks := ⟨0x80010000, 0x10000, 2⟩
  space := w.space
  tables := w.tables

/-- The cause that an answer reports. -/
def Answer.cause? : Answer → Option Error
  | .failed (.reported cause) => some cause
  | _ => none

/-- An answer reports its cause. -/
theorem Answer.eq_failed {answer : Answer} {cause : Error} (h : answer.cause? = some cause) :
    answer = .failed (.reported cause) := by
  unfold Answer.cause? at h
  split at h
  · cases h
    rfl
  · cases h

/-- The update of the shared slot to an entry that the first program reaches and the second does
not, with the byte at the target field of the first program before and after it. -/
theorem update_sharing :
    ∃ w ledger t s', World.run {} sharingHistory = some w ∧ w.Keeps ledger ∧
      w.session.tables[0]? = some t ∧ w.session.update 0 0 (some 0x18000) =
        (s', .failed (.reported (.outOfRange .patchTarget (-0x80008020)))) ∧
      w.session.space.byteAt 0x80010026 = some 0x0F ∧ s'.space.byteAt 0x80010026 = some 0xE9 := by
  have hrun : ((World.run {} sharingHistory).map fun w =>
      ((w.session.update 0 0 (some 0x18000)).2.cause?, w.tables.size, w.session.space.byteAt 0x80010026,
        (w.session.update 0 0 (some 0x18000)).1.space.byteAt 0x80010026)) =
        some (some (.outOfRange .patchTarget (-0x80008020)), 1, some 0x0F, some 0xE9) := by
    decide +kernel
  obtain ⟨w, hw, heq⟩ := Option.map_eq_some_iff.mp hrun
  obtain ⟨ledger, hk⟩ := World.Keeps.empty.run hw
  obtain ⟨hcause, heq⟩ := Prod.mk.inj heq
  obtain ⟨hsize, heq⟩ := Prod.mk.inj heq
  obtain ⟨hbefore, hafter⟩ := Prod.mk.inj heq
  have hlt : 0 < w.session.tables.size := by
    rw [World.session, hsize]
    decide
  exact ⟨w, ledger, _, _, hw, hk, Array.getElem?_eq_getElem hlt,
    Prod.ext rfl (Answer.eq_failed hcause), hbefore, hafter⟩

/-- The failed update of the shared slot stops at the second program. -/
theorem update_failed_sharing :
    ∃ (s s' : Session) (t : Table) (cause : Error), s.tables[0]? = some t ∧
      t.Consistent s.space ∧ s.update 0 0 (some 0x18000) = (s', .failed (.reported cause)) ∧
      s'.tables = s.tables ∧ ∃ moved rest, t.sitesOn 0 = moved ++ rest ∧
        t.Stops 0 (some 0x18000) moved rest ∧
        s.space.Keeps s'.space (fun a => ∃ x ∈ moved, x.site.Covers a) ∧
        (∀ x ∈ moved, x.site.Shows s'.space.byteAt (some 0x18000)) ∧
        ((∀ a, s'.space.byteAt a = s.space.byteAt a) ↔ moved = []) := by
  obtain ⟨w, ledger, t, s', _, hk, ht, hu, _, _⟩ := update_sharing
  exact ⟨w.session, s', t, _, ht, hk.consistent ht, hu, update_failed ht (hk.consistent ht) hu⟩

/-- A failed update of a table that agrees with its sites may change code: after the update of the
shared slot the first program jumps to the new entry, while the slot is still empty. -/
theorem changed_by_failed_update :
    ∃ (s s' : Session) (t : Table) (cause : Error), s.tables[0]? = some t ∧
      t.Consistent s.space ∧ s.update 0 0 (some 0x18000) = (s', .failed (.reported cause)) ∧
      ∃ a, s'.space.byteAt a ≠ s.space.byteAt a := by
  obtain ⟨w, ledger, t, s', _, hk, ht, hu, hbefore, hafter⟩ := update_sharing
  refine ⟨w.session, s', t, _, ht, hk.consistent ht, hu, 0x80010026, ?_⟩
  rw [hbefore, hafter]
  decide

end NativeForge
