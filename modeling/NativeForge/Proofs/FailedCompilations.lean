import NativeForge.Proofs.WholeSites

/-!
# Failed compilations

Direct tail calls are installed one after the other, in tables that other programs share, and any
of them can be refused. A compilation that fails on the way, or before, leaves every table with the
slots and the tracked sites it had. Tokens that were given out stay used, so a release takes out
what the failed compilation had put in and nothing else.
-/

namespace NativeForge

open X64 Virtual Target TailCall

/-- The tables have the slots and the tracked sites that they had before, in the same order. -/
structure SameTracking (before after : Array Table) : Prop where
  /-- No table came or went. -/
  size_eq : after.size = before.size
  /-- Every table has its slots and its tracked sites. -/
  table : ∀ (n : Nat) (t : Table), before[n]? = some t → ∃ t', after[n]? = some t' ∧
    t'.maxEntries = t.maxEntries ∧ t'.slots = t.slots ∧ t'.tracked = t.tracked

/-- Tables that no call was added to. -/
theorem TailCall.Extended.sameTracking {before after : Array Table} (h : Extended before after []) :
    SameTracking before after := by
  refine ⟨h.size_eq, fun n t ht => ?_⟩
  obtain ⟨t', ht', hext⟩ := h.table n t ht
  have htracked := hext.tracked_eq
  rw [trackedOn_nil, List.append_nil] at htracked
  exact ⟨t', ht', hext.maxEntries_eq, hext.slots_eq, htracked⟩

/-- No history gives a token twice. -/
theorem World.tokens_of_attempts {actions : List Action} {w : World}
    (h : World.attempts {} actions = some w) :
    ∀ (n : Nat) (t : Table), w.tables[n]? = some t → t.Tokens := by
  have hempty : World.Every {} [] fun site read _ => site.Whole read := fun x hx => nomatch hx
  obtain ⟨ledger, htracks, _⟩ := World.Tracks.empty.attempts hempty h
  exact htracks.tokens

/-- Releasing everything that an emission installed leaves the tables as they were. -/
theorem Emits.sameTracking_release {source : Source} {tables : Array Table} {e : Emission}
    {done : Installation} {c : CompiledProgram} (he : Emits source tables e done c)
    (ht : ∀ (n : Nat) (t : Table), tables[n]? = some t → t.Tokens) :
    SameTracking tables (release done.tables c.installed) := by
  obtain ⟨calls, _, hinstalled, hext, _⟩ := he.exists_calls
  rw [hinstalled]
  exact (extended_release hext ht).sameTracking

/-- A compilation that fails leaves no tracked site behind: after any history, a program that is
compiled or finished with an error, or that is installed in full and then released, leaves every
table with its slots and its tracked sites, in their order. -/
theorem tables_kept_by_failure {actions : List Action} {w : World}
    (h : World.attempts {} actions = some w) :
    (∀ config program resolve alloc cause,
      (compile config program resolve w.tables alloc).outcome = .error (.reported cause) →
        SameTracking w.tables (compile config program resolve w.tables alloc).tables) ∧
    (∀ (pending : PendingProgram) program resolve asked cause,
      (pending.finish program resolve w.tables asked).outcome = .error (.reported cause) →
        SameTracking w.tables (pending.finish program resolve w.tables asked).tables) ∧
    (∀ config program resolve alloc c,
      (compile config program resolve w.tables alloc).outcome = .ok (.compiled c) →
        SameTracking w.tables
          (release (compile config program resolve w.tables alloc).tables c.installed)) ∧
    ∀ (pending : PendingProgram) program resolve asked c,
      (pending.finish program resolve w.tables asked).outcome = .ok (.compiled c) →
        SameTracking w.tables
          (release (pending.finish program resolve w.tables asked).tables c.installed) := by
  have htokens := World.tokens_of_attempts h
  refine ⟨?_, ?_, ?_, ?_⟩
  · intro config program resolve alloc cause hfail
    exact ((compile_failed hfail).extended htokens).sameTracking
  · intro pending program resolve asked cause hfail
    exact ((finish_failed hfail).extended htokens).sameTracking
  · intro config program resolve alloc c hdone
    obtain ⟨e, done, he, htables, _⟩ := compile_emits hdone
    rw [htables]
    exact he.sameTracking_release htokens
  · intro pending program resolve asked c hdone
    obtain ⟨e, done, he, htables, _⟩ := finish_emits hdone
    rw [htables]
    exact he.sameTracking_release htokens

/-- Two tail calls through tables that other programs use, then one whose key is beyond its
table. -/
def overreachingProgram : Program where
  name := "overreaching"
  insns := [⟨0xF5, 0, 0, 0, 1⟩, ⟨0xF5, 0, 0, 0, 2⟩, ⟨0xF5, 0, 0, 0, 3⟩, ⟨0x95, 0, 0, 0, 0⟩]
  descriptors := [{ table := 0, key := 0 }, { table := 1, key := 3 }, { table := 0, key := 1 }]

/-- The compilation of the overreaching program, from the tables of a world. -/
def World.overreach (w : World) : Compilation :=
  compile {} overreachingProgram (fun _ => none) w.tables fun size => .ok (.blank 0x80030000 size)

/-- The third tail call is refused when two are installed. Each of the two tables has then given a
token away, and tracks what it tracked before: the calls of the two other programs. -/
theorem tables_kept_overreaching :
    ∃ w, World.attempts {} (sharingHistory ++ [.table 4]) = some w ∧
      w.overreach.outcome = .error (.reported (.outOfRange .tailCallKey 1)) ∧
      w.tables.map (fun t => (t.tracked.length, t.nextToken)) = #[(2, 3), (0, 1)] ∧
      w.overreach.tables.map (fun t => (t.tracked.length, t.nextToken)) = #[(2, 4), (0, 2)] ∧
      SameTracking w.tables w.overreach.tables := by
  have hrun : ((World.attempts {} (sharingHistory ++ [.table 4])).map fun w =>
      (w.overreach.cause?, w.tables.map (fun t => (t.tracked.length, t.nextToken)),
        w.overreach.tables.map (fun t => (t.tracked.length, t.nextToken)))) =
      some (some (.outOfRange .tailCallKey 1), #[(2, 3), (0, 1)], #[(2, 4), (0, 2)]) := by
    decide +kernel
  obtain ⟨w, hw, heq⟩ := Option.map_eq_some_iff.mp hrun
  obtain ⟨hcause, heq⟩ := Prod.mk.inj heq
  obtain ⟨hbefore, hafter⟩ := Prod.mk.inj heq
  have hfail := Compilation.cause?_eq_some.mp hcause
  exact ⟨w, hw, hfail, hbefore, hafter, (tables_kept_by_failure hw).1 _ _ _ _ _ hfail⟩

end NativeForge
