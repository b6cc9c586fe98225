import NativeForge.Dispatcher

/-!
# Search trees over addresses

The addresses of a dispatcher are sorted by their signed readings, each once. The search tree over
them leads every word to one of the addresses, and a word that is one of them to itself.
-/

namespace NativeForge.Dispatcher

section Sorting

variable {v w : Int} {l : List Int} {targets : List Address}

/-- Inserting a number adds it and nothing else. -/
theorem mem_insertSorted : w ∈ insertSorted v l ↔ w = v ∨ w ∈ l := by
  induction l with
  | nil => simp [insertSorted]
  | cons x rest ih =>
    rw [insertSorted]
    split
    · simp
    · split
      · rename_i heq
        simp [heq]
      · rw [List.mem_cons, List.mem_cons, ih]
        exact or_left_comm

/-- Inserting a number keeps a list ascending. -/
theorem pairwise_insertSorted (h : l.Pairwise (· < ·)) :
    (insertSorted v l).Pairwise (· < ·) := by
  induction l with
  | nil => simp [insertSorted]
  | cons x rest ih =>
    obtain ⟨hx, hrest⟩ := List.pairwise_cons.mp h
    rw [insertSorted]
    split
    · rename_i hlt
      refine List.pairwise_cons.mpr ⟨fun w hw => ?_, h⟩
      rcases List.mem_cons.mp hw with rfl | hw
      · exact hlt
      · exact Int.lt_trans hlt (hx w hw)
    · split
      · exact h
      · refine List.pairwise_cons.mpr ⟨fun w hw => ?_, ih hrest⟩
        rcases mem_insertSorted.mp hw with rfl | hw
        · omega
        · exact hx w hw

/-- Inserting a number makes a list longer by at most one. -/
theorem length_insertSorted_le (v : Int) (l : List Int) :
    (insertSorted v l).length ≤ l.length + 1 := by
  induction l with
  | nil => simp [insertSorted]
  | cons x rest ih =>
    rw [insertSorted]
    split
    · simp
    · split
      · simp
      · simpa using ih

/-- The sorted addresses are the readings of the given ones. -/
theorem mem_sortedTargets : v ∈ sortedTargets targets ↔ ∃ a ∈ targets, a.signed = v := by
  induction targets with
  | nil => simp [sortedTargets]
  | cons a rest ih =>
    rw [sortedTargets, List.map_cons, List.foldr_cons, mem_insertSorted]
    rw [sortedTargets] at ih
    rw [ih]
    simp only [List.mem_cons, exists_eq_or_imp]
    rw [eq_comm]

/-- The sorted addresses ascend, so none is there twice. -/
theorem pairwise_sortedTargets (targets : List Address) :
    (sortedTargets targets).Pairwise (· < ·) := by
  induction targets with
  | nil => exact .nil
  | cons a rest ih => exact pairwise_insertSorted ih

/-- Addresses in ascending order are sorted already. -/
theorem sortedTargets_of_pairwise (h : (targets.map Address.signed).Pairwise (· < ·)) :
    sortedTargets targets = targets.map Address.signed := by
  unfold sortedTargets
  induction targets with
  | nil => rfl
  | cons a rest ih =>
    obtain ⟨hlt, hrest⟩ := List.pairwise_cons.mp h
    rw [List.map_cons, List.foldr_cons, ih hrest]
    cases hlist : rest.map Address.signed with
    | nil => rfl
    | cons w rest' => exact if_pos (hlt w (by rw [hlist]; exact List.mem_cons_self ..))

/-- There are not more sorted addresses than given ones. -/
theorem length_sortedTargets_le (targets : List Address) :
    (sortedTargets targets).length ≤ targets.length := by
  induction targets with
  | nil => exact Nat.le_refl _
  | cons a rest ih => exact Nat.le_trans (length_insertSorted_le _ _) (Nat.succ_le_succ ih)

end Sorting

namespace Tree

/-- The address that a word is compared with at the end of the search. -/
def search : Tree → Int → Int
  | .leaf target, _ => target
  | .node pivot lower upper, v => if pivot < v then upper.search v else lower.search v

/-- The number of addresses in a tree. -/
def leaves : Tree → Nat
  | .leaf _ => 1
  | .node _ lower upper => lower.leaves + upper.leaves

/-- The pivot of a list parts it: it ends the lower half, and the rest is the upper half. -/
theorem split_at_pivot (first : Int) {rest : List Int} (h : rest.length ≠ 0) :
    ∃ below pivot, (first :: rest).getD (rest.length / 2) first = pivot ∧
      first :: rest.take (rest.length / 2) = below ++ [pivot] ∧
      rest.getD (rest.length / 2) first :: rest.drop (rest.length / 2 + 1) =
        rest.drop (rest.length / 2) ∧
      first :: rest = below ++ pivot :: rest.drop (rest.length / 2) := by
  have hlt : rest.length / 2 < rest.length := by omega
  have hlt' : rest.length / 2 < (first :: rest).length := by simp; omega
  have htake : (first :: rest).take (rest.length / 2) ++ [(first :: rest)[rest.length / 2]] =
      first :: rest.take (rest.length / 2) := List.take_append_getElem hlt'
  refine ⟨(first :: rest).take (rest.length / 2), (first :: rest)[rest.length / 2], ?_, htake.symm,
    ?_, ?_⟩
  · exact (List.getElem_eq_getD first).symm
  · rw [List.drop_eq_getElem_cons hlt, List.getElem_eq_getD first]
  · rw [List.append_cons, htake, List.cons_append, List.take_append_drop]

variable {first v : Int} {rest : List Int}

/-- A tree holds every address of the list once. -/
theorem leaves_build (first : Int) (rest : List Int) :
    (build first rest).leaves = rest.length + 1 := by
  fun_induction build first rest with
  | case1 first rest h => rw [leaves, h]
  | case2 first rest h pivot ih1 ih2 =>
    rw [leaves, ih1, ih2, List.length_take, List.length_drop]
    omega

/-- The search ends at an address of the list, and a word that is in the list is found. -/
theorem search_build (h : (first :: rest).Pairwise (· < ·)) :
    (build first rest).search v ∈ first :: rest ∧
      (v ∈ first :: rest → (build first rest).search v = v) := by
  fun_induction build first rest with
  | case1 first rest hnil =>
    rw [List.length_eq_zero_iff.mp hnil]
    exact ⟨List.mem_singleton.mpr rfl, fun hv => (List.mem_singleton.mp hv).symm⟩
  | case2 first rest hne half ih1 ih2 =>
    obtain ⟨below, pivot, hpivot, hlower, hupper, hlist⟩ := split_at_pivot first hne
    rw [search, hpivot, hlist]
    rw [hlist] at h
    rw [hlower] at ih1
    rw [hupper] at ih2
    obtain ⟨hbelow, habove, hle⟩ := List.pairwise_append.mp h
    obtain ⟨hpivot_lt, hdrop⟩ := List.pairwise_cons.mp habove
    have hlower_pairwise : (below ++ [pivot]).Pairwise (· < ·) :=
      List.pairwise_append.mpr ⟨hbelow, List.pairwise_singleton _ _, fun x hx y hy =>
        hle x hx y (List.mem_cons.mpr (.inl (List.mem_singleton.mp hy)))⟩
    split
    · -- above the pivot: not in the lower half
      rename_i hgt
      obtain ⟨hmem, hfound⟩ := ih2 hdrop
      refine ⟨List.mem_append_right _ (List.mem_cons_of_mem _ hmem), fun hv => hfound ?_⟩
      rcases List.mem_append.mp hv with hv | hv
      · have := hle v hv pivot (List.mem_cons_self ..)
        omega
      · exact (List.mem_cons.mp hv).resolve_left (by omega)
    · -- up to the pivot: not in the upper half
      rename_i hgt
      obtain ⟨hmem, hfound⟩ := ih1 hlower_pairwise
      have hsplit : below ++ pivot :: rest.drop (rest.length / 2) =
          (below ++ [pivot]) ++ rest.drop (rest.length / 2) := List.append_cons ..
      rw [hsplit]
      refine ⟨List.mem_append_left _ hmem, fun hv => hfound ?_⟩
      rcases List.mem_append.mp hv with hv | hv
      · exact hv
      · exact absurd (hpivot_lt v hv) hgt

end Tree

end NativeForge.Dispatcher
