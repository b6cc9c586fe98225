import NativeForge.Proofs.SiteAgreement

/-!
# Updates of tail-call tables

A table is consistent with the mapped images when every tracked site shows the slot of its key. An
update repoints the sites of its key one after the other, in the order of their installation. It
gets to the end exactly when every one of them reaches the new entry; otherwise it stops at the
first that does not.
-/

namespace NativeForge

open Target

namespace TailCall

/-- Repointing sites one after the other: some of them, from the first on, come to show the new
slot, and the rest is empty or starts with a site that does not reach the new entry. -/
theorem patchAll_flatten {sites : List Tracked} (hp : ∀ t ∈ sites, t.site.Placed)
    (hap : sites.Pairwise fun a b => a.site.Apart b.site) {space space' : Space}
    (hs : space.Separate) {old new : Option Address}
    (hold : ∀ t ∈ sites, t.site.Shows space.byteAt old) {groups : List (List (Address × Patch))}
    {r : Result Error Unit}
    (hg : (sites.mapM fun t => t.site.patches old new : Result Error _) = .ok groups)
    (h : patchAll space groups.flatten = (space', r)) (hr : r ≠ .error .crash) :
    ∃ moved rest, sites = moved ++ rest ∧
      space.Keeps space' (fun a => ∃ t ∈ moved, t.site.Covers a) ∧
      (∀ t ∈ moved, t.site.Shows space'.byteAt new) ∧
      ((rest = [] ∧ r = .ok ()) ∨ ∃ t after entry distance, rest = t :: after ∧
        new = some entry ∧ ¬t.site.Reaches entry ∧ r = outOfRange .patchTarget distance) := by
  induction sites generalizing space groups with
  | nil =>
    cases pure_eq_ok.mp hg
    cases h
    exact ⟨[], [], rfl, .refl _ _, fun t ht => absurd ht (by simp), .inl ⟨rfl, rfl⟩⟩
  | cons t rest ih =>
    rw [List.mapM_cons] at hg
    obtain ⟨group, hgroup, hg⟩ := bind_eq_ok.mp hg
    obtain ⟨others, hothers, hg⟩ := bind_eq_ok.mp hg
    obtain rfl := pure_eq_ok.mp hg
    have hpt := hp t (by simp)
    obtain ⟨hapt, hapr⟩ := List.pairwise_cons.mp hap
    rw [List.flatten_cons] at h
    rcases PatchSite.patchAll_patches hpt hs (hold t (by simp)) hgroup h hr with
      ⟨middle, hk, hshow, h⟩ | ⟨rfl, entry, distance, rfl, hfar, rfl⟩
    · -- The site is done; the others still show the old slot, as they share no byte with it.
      have hold' : ∀ u ∈ rest, u.site.Shows middle.byteAt old := fun u hu =>
        (hold u (by simp [hu])).congr fun a ha => hk.outside a fun hc =>
          (hapt u hu).not_covers hpt (hp u (by simp [hu])) hc ha
      obtain ⟨moved, left, rfl, hk', hshow', hend⟩ := ih (fun u hu => hp u (by simp [hu])) hapr
        (hk.same.separate hs) hold' hothers h
      refine ⟨t :: moved, left, rfl, ?_, ?_, hend⟩
      · refine (hk.mono fun a ha => ⟨t, by simp, ha⟩).trans (hk'.mono ?_)
        rintro a ⟨u, hu, ha⟩
        exact ⟨u, by simp [hu], ha⟩
      · intro u hu
        rcases List.mem_cons.mp hu with rfl | hu
        · refine hshow.congr fun a ha => hk'.outside a ?_
          rintro ⟨v, hv, hc⟩
          exact (hapt v (by simp [hv])).not_covers hpt (hp v (by simp [hv])) ha hc
        · exact hshow' u hu
    · exact ⟨[], t :: rest, rfl, .refl _ _, fun u hu => absurd hu (by simp),
        .inr ⟨t, rest, entry, distance, rfl, rfl, hfar, rfl⟩⟩

namespace Table

/-- The tracked sites of a key, in the order of their installation. -/
def sitesOn (t : Table) (key : UInt32) : List Tracked := t.tracked.filter fun s => s.key == key

/-- The tracked sites of a key are tracked under that key. -/
theorem mem_sitesOn {t : Table} {key : UInt32} {s : Tracked} :
    s ∈ t.sitesOn key ↔ s ∈ t.tracked ∧ s.key = key := by
  unfold sitesOn
  rw [List.mem_filter, beq_iff_eq]

/-- The table agrees with the mapped images: its sites stand in separate places, and every one
shows the slot of its key. -/
structure Consistent (t : Table) (space : Space) : Prop where
  /-- The images do not overlap. -/
  separate : space.Separate
  /-- The fields of every site are in their places. -/
  placed : ∀ s ∈ t.tracked, s.site.Placed
  /-- No two sites share a byte. -/
  apart : t.tracked.Pairwise fun a b => a.site.Apart b.site
  /-- Every site shows the slot of its key. -/
  shows : ∀ s ∈ t.tracked, s.site.Shows space.byteAt (t.slots s.key)

/-- The table after a slot was set. -/
def setSlot (t : Table) (key : UInt32) (entry : Option Address) : Table :=
  { t with slots := fun k => if k = key then entry else t.slots k }

/-- The only failure on the way to the patches of an update is an address that does not exist. -/
theorem patches_eq_error {ε : Type} {t : Table} {key : UInt32} {entry : Option Address}
    {f : Failure ε} (h : (t.patches key entry : Result ε (List (Address × Patch))) = .error f) :
    f = .crash := by
  rcases bind_eq_error.mp h with h | ⟨_, _, h⟩
  · generalize t.tracked.filter _ = sites at h
    induction sites with
    | nil => cases h
    | cons s rest ih =>
      rw [List.mapM_cons] at h
      rcases bind_eq_error.mp h with h | ⟨_, _, h⟩
      · exact PatchSite.patches_eq_error h
      · rcases bind_eq_error.mp h with h | ⟨_, _, h⟩
        · exact ih h
        · cases h
  · cases h

/-- An update that succeeded would have done the same if everything had been granted. -/
theorem update_granted {t t' : Table} {space space' : Space} {key : UInt32}
    {entry : Option Address} {access : List Access}
    (h : t.update space key entry access = (space', .ok t')) :
    t.update space key entry = (space', .ok t') := by
  unfold update at h ⊢
  split at h
  · cases h
  · split at h
    · cases h
    · split at h
      · cases h
      · rename_i hall
        rw [patchAll_granted hall]
        exact h

/-- What an update of a consistent table does: it refuses a key that is not the table's, and
otherwise repoints sites of the key, all of them or those before the first that does not reach the
new entry. -/
theorem update_cases {t : Table} {space space' : Space} (hc : t.Consistent space) {key : UInt32}
    {entry : Option Address} {r : Result Error Table}
    (h : t.update space key entry = (space', r)) (hr : r ≠ .error .crash) :
    (¬key < t.maxEntries ∧ space' = space ∧ r = outOfRange .tailCallKey key.toNat) ∨
      (key < t.maxEntries ∧ ∃ moved rest, t.sitesOn key = moved ++ rest ∧
        space.Keeps space' (fun a => ∃ s ∈ moved, s.site.Covers a) ∧
        (∀ s ∈ moved, s.site.Shows space'.byteAt entry) ∧
        ((rest = [] ∧ r = .ok (t.setSlot key entry)) ∨ ∃ s after dest distance, rest = s :: after ∧
          entry = some dest ∧ ¬s.site.Reaches dest ∧ r = outOfRange .patchTarget distance)) := by
  unfold update checkKey at h
  by_cases hk : key < t.maxEntries
  · rw [if_pos hk] at h
    dsimp only at h
    refine .inr ⟨hk, ?_⟩
    cases hg : (t.patches key entry : Result Error (List (Address × Patch))) with
    | error f =>
      rw [hg] at h
      cases h
      rw [patches_eq_error hg] at hr
      exact absurd rfl hr
    | ok patches =>
      rw [hg] at h
      dsimp only at h
      obtain ⟨groups, hgroups, hflat⟩ := bind_eq_ok.mp hg
      obtain rfl := pure_eq_ok.mp hflat
      obtain ⟨last, result, hall⟩ : ∃ last result, patchAll space groups.flatten = (last, result) :=
        ⟨_, _, rfl⟩
      have hmem : ∀ s ∈ t.sitesOn key, s ∈ t.tracked ∧ s.key = key := fun s hs => mem_sitesOn.mp hs
      have hold : ∀ s ∈ t.sitesOn key, s.site.Shows space.byteAt (t.slots key) := fun s hs =>
        (hmem s hs).2 ▸ hc.shows s (hmem s hs).1
      have hrun := patchAll_flatten (fun s hs => hc.placed s (hmem s hs).1) (hc.apart.filter _)
        hc.separate hold hgroups hall
      rw [hall] at h
      cases result with
      | error f =>
        cases h
        obtain ⟨moved, rest, hsites, hkeep, hshow, hend⟩ := hrun (fun hf => hr (by cases hf; rfl))
        refine ⟨moved, rest, hsites, hkeep, hshow, ?_⟩
        rcases hend with ⟨_, hf⟩ | ⟨s, after, dest, distance, hrest, he, hfar, hf⟩
        · cases hf
        · cases hf
          exact .inr ⟨s, after, dest, distance, hrest, he, hfar, rfl⟩
      | ok value =>
        cases h
        obtain ⟨moved, rest, hsites, hkeep, hshow, hend⟩ := hrun (fun hf => by cases hf)
        refine ⟨moved, rest, hsites, hkeep, hshow, ?_⟩
        rcases hend with ⟨hrest, _⟩ | ⟨_, _, _, _, _, _, _, hf⟩
        · exact .inl ⟨hrest, rfl⟩
        · cases hf
  · rw [if_neg hk] at h
    cases h
    exact .inl ⟨hk, rfl, rfl⟩

end Table

end TailCall

end NativeForge
