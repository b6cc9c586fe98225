import NativeForge.Proofs.DispatcherExecution

/-!
# Dispatchers of more than two gigabytes

The direct jumps of a dispatcher are checked for their reach, the branches to the upper halves are
not. So a dispatcher is emitted at every length, as long as its addresses are near their jumps. With
enough addresses the lower half of the whole tree takes more than two gigabytes: the displacement of
the first branch is cut to 32 bits and leads in front of the code, and no address of the upper half
is found.
-/

namespace NativeForge.Dispatcher

open X64

section Straying

variable {pieces low high : List Piece} {base : Address} {a b gap : Nat} {s t : State} {i : Instr}
  {control : Control} {rel : SignedField} {pivot : Int} {lower upper : Tree}

/-- A dispatcher is not left by a walk that ends at an instruction without a next step. -/
theorem Walks.not_transfers (h : Walks pieces a s b t) (hstay : Stays pieces b t)
    (hstuck : step (pieceBytes pieces) b t = none) (hi : ∀ rel, i ≠ .jcc .greater rel)
    (hcontrol : control ≠ .next) : ¬Transfers pieces base a s i control := by
  obtain ⟨m, hrun, hstays⟩ := h
  rintro ⟨o, u, ⟨n, hrun', _⟩, hfetches, hexec, _⟩
  rcases Nat.lt_or_ge m n with hlt | hge
  · -- the way out would go on behind the end
    obtain ⟨k, rfl⟩ := Nat.exists_eq_add_of_lt hlt
    rw [Nat.add_assoc, run_add, hrun, Option.bind_some, run, hstuck] at hrun'
    cases hrun'
  · -- the way out would end on the walk, where every instruction stays in the dispatcher
    obtain ⟨o', u', hrun'', hstay'⟩ : ∃ o' u', run (pieceBytes pieces) n a s = some (o', u') ∧
        Stays pieces o' u' := by
      rcases Nat.lt_or_eq_of_le hge with hlt | rfl
      · exact hstays n hlt
      · exact ⟨b, t, hrun, hstay⟩
    obtain ⟨rfl, rfl⟩ := Prod.mk.inj (Option.some.inj (hrun''.symm.trans hrun'))
    obtain ⟨j, hfetches', hgoes⟩ := hstay'
    obtain ⟨rfl, _⟩ :=
      Prod.mk.inj (Option.some.inj (hfetches'.fetch_eq.symm.trans hfetches.fetch_eq))
    rcases hgoes with ⟨v, hnext⟩ | ⟨rel, hjcc⟩
    · exact hcontrol (Prod.mk.inj (Option.some.inj (hexec.symm.trans hnext))).2
    · exact hi rel hjcc

/-- If the first branch leads in front of the code, the words above the pivot stray. -/
theorem IsNodeCode.not_leavesBy (h : IsNodeCode base pivot lower upper 0 pieces rel low gap high)
    (hpivot : InWord pivot)
    (hback : ((codeSize (compareTo pivot) + (Instr.jcc .greater rel).size : Nat) : Int) +
      rel.value < 0) (hgt : pivot < (s.regs .rdx).toInt) (found : Prop) :
    ¬LeavesBy pieces base 0 s found := by
  have hplaced : Placed pieces 0 ((compareTo pivot ++ [Instr.jcc .greater rel]).map .instr ++
      (low ++ [.trap gap] ++ high)) := ⟨[], [], by simp [h.pieces_eq], rfl⟩
  have htest := hplaced.left
  rw [List.map_append] at htest
  have hbranch := htest.right
  rw [piecesSize_map_instr] at hbranch
  obtain ⟨t, hx, hflags, _⟩ := exec_compareTo pivot s
  have hwalk := Walks.execAll htest.left (encodable_compareTo pivot) hx
  have hexec := exec_jcc hflags .greater rel
  rw [holds_greater _ hpivot, if_pos (decide_eq_true hgt)] at hexec
  have hstuck : step (pieceBytes pieces) (0 + codeSize (compareTo pivot)) t = none := by
    rw [step, hbranch.hasCode.fetch_eq trivial]
    simp only [Option.bind_eq_bind, Option.bind_some, hexec]
    exact if_neg (by omega)
  have hstay : Stays pieces (0 + codeSize (compareTo pivot)) t :=
    ⟨_, hbranch.fetches trivial, .inr ⟨rel, rfl⟩⟩
  intro hleaves
  by_cases hfound : found
  · obtain ⟨rel', htransfers⟩ := hleaves.1 hfound
    exact hwalk.not_transfers hstay hstuck (by simp) (by simp) htransfers
  · exact hwalk.not_transfers hstay hstuck (by simp) (by simp) (hleaves.2 hfound)

/-- The displacement of the first branch leads in front of the code, if the lower half takes more
than two gigabytes and the upper half starts in the first four. -/
theorem IsNodeCode.branch_back (h : IsNodeCode base pivot lower upper 0 pieces rel low gap high)
    (hfar : 2 ^ 31 ≤ piecesSize low + gap)
    (hlt : codeSize (compareTo pivot) + 6 + (piecesSize low + gap) < 2 ^ 32) :
    ((codeSize (compareTo pivot) + (Instr.jcc .greater rel).size : Nat) : Int) + rel.value < 0 := by
  have hmod := h.rel_mod
  cases rel with
  | byte v =>
    have hlow := v.le_toInt
    have hhigh := v.toInt_lt
    rw [size_jcc_byte]
    dsimp only [SignedField.value] at hmod ⊢
    omega
  | dword v =>
    have hlow := v.le_toInt
    have hhigh := v.toInt_lt
    rw [size_jcc_dword]
    dsimp only [SignedField.value] at hmod ⊢
    omega

end Straying

section Emission

variable {base : Address} {offset : Nat} {pieces : List Piece} {pivot : Int} {lower upper : Tree}

/-- There is padding up to every multiple of sixteen. -/
theorem exists_alignment (h : base.toNat + offset + 16 < 2 ^ 64) :
    ∃ gap, alignment (some base) offset = .ok [.trap gap] ∧ gap < 16 := by
  have hgap : (CodeBuffer.alignmentGap (base.toNat + offset) 16 : Result Error Nat) = .ok _ :=
    alignmentGap_sixteen.mpr ⟨h, rfl⟩
  exact ⟨_, bind_eq_ok.mpr ⟨_, word64_eq_ok.mpr ⟨by rw [Option.getD_some]; omega, rfl⟩,
    bind_eq_ok.mpr ⟨_, hgap, rfl⟩⟩, by omega⟩

/-- A leaf is emitted if its address is near its jump. -/
theorem exists_emit_leaf {target : Int}
    (hlow : base.toNat + (offset + codeSize (compareTo target) + 6) < 2 ^ 63)
    (hback : (base.toNat + (offset + codeSize (compareTo target) + 6 : Nat) : Int) ≤
      target + 2 ^ 31)
    (hahead : target < base.toNat + (offset + codeSize (compareTo target) + 6 : Nat) + 2 ^ 31) :
    ∃ pieces, (Tree.leaf target).emit (some base) offset = .ok pieces := by
  obtain ⟨next, hnext, hrel, hfits⟩ := displacement_fits (ε := Error) hlow hback hahead
  exact ⟨_, bind_eq_ok.mpr ⟨_, bind_eq_ok.mpr ⟨next, hnext, bind_eq_ok.mpr ⟨_, hrel, if_pos hfits⟩⟩,
    rfl⟩⟩

/-- A node is emitted if its halves are, behind a branch of either form. -/
theorem exists_emit_node
    (hlower : ∀ size, size = 2 ∨ size = 6 → ∃ low,
      lower.emit (some base) (offset + codeSize (compareTo pivot) + size) = .ok low ∧
      base.toNat + (offset + codeSize (compareTo pivot) + size + piecesSize low) + 16 < 2 ^ 64)
    (hupper : ∀ size low gap, size = 2 ∨ size = 6 →
      lower.emit (some base) (offset + codeSize (compareTo pivot) + size) = .ok low → gap < 16 →
      ∃ high, upper.emit (some base) (offset + codeSize (compareTo pivot) +
        (size + (piecesSize low + gap))) = .ok high) :
    ∃ pieces, (Tree.node pivot lower upper).emit (some base) offset = .ok pieces := by
  obtain ⟨low, hlow, hroom⟩ := hlower 2 (.inl rfl)
  obtain ⟨low', hlow', hroom'⟩ := hlower 6 (.inr rfl)
  obtain ⟨gap, halign, hgap⟩ := exists_alignment hroom
  obtain ⟨gap', halign', hgap'⟩ := exists_alignment hroom'
  have hsize : ∀ low gap, piecesSize (low ++ [.trap gap]) = piecesSize low + gap := by simp
  rw [Tree.emit]
  simp only [piecesSize_map_instr]
  cases hfits : fitsInt8 (piecesSize (low ++ [.trap gap])) with
  | true =>
    obtain ⟨high, hhigh⟩ := hupper 2 low gap (.inl rfl) hlow hgap
    refine ⟨_, bind_eq_ok.mpr ⟨low, hlow, bind_eq_ok.mpr ⟨_, halign,
      (if_pos hfits).trans (bind_eq_ok.mpr ⟨_, rfl, bind_eq_ok.mpr ⟨high, ?_, rfl⟩⟩)⟩⟩⟩
    rw [List.cons_append, piecesSize_cons, hsize]
    exact hhigh
  | false =>
    obtain ⟨high, hhigh⟩ := hupper 6 low' gap' (.inr rfl) hlow' hgap'
    refine ⟨_, bind_eq_ok.mpr ⟨low, hlow, bind_eq_ok.mpr ⟨_, halign,
      (if_neg (by rw [hfits]; decide)).trans (bind_eq_ok.mpr ⟨low', hlow',
        bind_eq_ok.mpr ⟨_, halign', bind_eq_ok.mpr ⟨_, rfl, bind_eq_ok.mpr ⟨high, ?_, rfl⟩⟩⟩⟩)⟩⟩⟩
    rw [List.cons_append, piecesSize_cons, hsize]
    exact hhigh

/-- Code in which every comparison takes thirteen bytes: a leaf takes 21 bytes, and a node between
15 and 34 more than its halves. -/
theorem Tree.piecesSize_emit_between {tree : Tree}
    (h : tree.emit (some base) offset = .ok pieces)
    (hall : tree.All fun v => codeSize (compareTo v) = 13) :
    36 * tree.leaves ≤ piecesSize pieces + 15 ∧ piecesSize pieces + 34 ≤ 55 * tree.leaves := by
  induction tree generalizing offset pieces with
  | leaf target =>
    obtain ⟨rel, rfl, _⟩ := emit_leaf_eq_ok h
    have hjump : (Instr.jmpReg .rdx).size = 2 := rfl
    have htest : codeSize (compareTo target) = 13 := hall
    rw [piecesSize_map_instr, codeSize_append, codeSize_cons, codeSize_cons, codeSize_nil,
      size_jcc_dword, hjump, htest, leaves]
    decide
  | node pivot lower upper ihl ihu =>
    obtain ⟨htest, hlower, hupper⟩ := hall
    obtain ⟨rel, low, gap, high, hcode⟩ := emit_node_eq_ok h
    have hlow := ihl hcode.lower_eq hlower
    have hhigh := ihu hcode.upper_eq hupper
    have hgap := hcode.gap_lt
    have hbranch : 2 ≤ (Instr.jcc .greater rel).size ∧ (Instr.jcc .greater rel).size ≤ 6 := by
      cases rel with
      | byte v => rw [size_jcc_byte]; decide
      | dword v => rw [size_jcc_dword]; decide
    have hparts := hcode.size_eq
    rw [leaves]
    omega

end Emission

/-- The reading of an address of a row: they are 45 bytes apart, from four gigabytes on. -/
def spot (i : Nat) : Int := 2 ^ 32 + 45 * i

/-- A row of addresses. -/
def rowTargets (count : Nat) : List Address :=
  (List.range count).map fun i => UInt64.ofNat (2 ^ 32 + 45 * i)

section Row

variable {count a offset : Nat} {first : Int} {rest : List Int}

/-- A row is sorted. -/
theorem sortedTargets_rowTargets (h : count ≤ 2 ^ 27) :
    sortedTargets (rowTargets count) = (List.range' 0 count).map spot := by
  have hmap : (rowTargets count).map Address.signed = (List.range' 0 count).map spot := by
    rw [rowTargets, List.map_map, List.range_eq_range']
    refine List.map_congr_left fun i hi => ?_
    have hlt : i < count := by simpa using hi
    have hsum : (UInt64.ofNat (2 ^ 32 + 45 * i)).toNat = 2 ^ 32 + 45 * i :=
      UInt64.toNat_ofNat_of_lt' (Nat.lt_trans (show _ < 2 ^ 63 by omega) (by decide))
    rw [Function.comp_apply, Address.signed_eq, hsum, if_pos (by omega), spot]
    omega
  rw [sortedTargets_of_pairwise, hmap]
  rw [hmap, List.pairwise_map]
  refine List.Pairwise.imp ?_ List.pairwise_lt_range'
  intro i j hlt
  unfold spot
  omega

/-- A part of a row is a row. -/
theorem row_append {front back : List Int}
    (h : front ++ back = (List.range' a (front.length + back.length)).map spot) :
    front = (List.range' a front.length).map spot ∧
      back = (List.range' (a + front.length) back.length).map spot := by
  rw [← List.range'_append_1, List.map_append] at h
  exact List.append_inj h (by simp)

/-- Comparisons with the addresses of a row take thirteen bytes. -/
theorem codeSize_compareTo_spot {i : Nat} (h : i < 2 ^ 27) :
    codeSize (compareTo (spot i)) = 13 := by
  have hword : (Int64.ofInt (spot i)).toUInt64.toNat = 2 ^ 32 + 45 * i := by
    have hbits : (Int64.ofInt (spot i)).toUInt64 = UInt64.ofNat (2 ^ 32 + 45 * i) := rfl
    rw [hbits]
    exact UInt64.toNat_ofNat_of_lt' (Nat.lt_trans (show _ < 2 ^ 63 by omega) (by decide))
  have hlong : fitsInt32 (spot i) = false := by
    rw [Bool.eq_false_iff, ne_eq, fitsInt32_iff, spot]
    omega
  have hwide : fitsUInt32 (2 ^ 32 + 45 * i) = false := by
    rw [fitsUInt32, decide_eq_false_iff_not]
    exact Nat.not_lt.mpr (Nat.le_add_right _ _)
  rw [compareTo, if_neg (by rw [hlong]; decide), loadImm64, hword, if_neg (by rw [hwide]; decide)]
  rfl

/-- What holds of the addresses of a row holds throughout its tree. -/
theorem row_all {P : Int → Prop} (hrow : first :: rest = (List.range' a (rest.length + 1)).map spot)
    (hP : ∀ i, i < a + rest.length + 1 → P (spot i)) : (Tree.build first rest).All P := by
  refine Tree.all_build fun v hv => ?_
  rw [hrow] at hv
  obtain ⟨i, hi, rfl⟩ := List.mem_map.mp hv
  obtain ⟨_, _, _⟩ := List.mem_range'.mp hi
  exact hP i (by omega)

/-- The size of the code of a row. -/
theorem row_size {pieces : List Piece}
    (hrow : first :: rest = (List.range' a (rest.length + 1)).map spot)
    (hend : a + rest.length < 2 ^ 27) {base : Address}
    (h : (Tree.build first rest).emit (some base) offset = .ok pieces) :
    36 * (rest.length + 1) ≤ piecesSize pieces + 15 ∧
      piecesSize pieces + 34 ≤ 55 * (rest.length + 1) := by
  rw [← Tree.leaves_build first rest]
  exact Tree.piecesSize_emit_between h
    (row_all hrow fun i hi => codeSize_compareTo_spot (by omega))

/-- The leaf of an address is emitted, if the code in front of it takes between 36 and 55 bytes per
address. -/
theorem exists_emit_spot (ha : a < 2 ^ 27) (hlow : 36 * a ≤ offset)
    (hhigh : offset ≤ 55 * a + 513) :
    ∃ pieces, (Tree.leaf (spot a)).emit (some 0x100000000) offset = .ok pieces := by
  have hbase : (0x100000000 : Address).toNat = 2 ^ 32 := rfl
  have hspot : spot a = 2 ^ 32 + 45 * a := rfl
  have hsize := codeSize_compareTo_spot ha
  exact exists_emit_leaf (by omega) (by omega) (by omega)

/-- The lower half of a row has half of the addresses behind the first one. -/
theorem length_take_half (rest : List Int) :
    (rest.take (rest.length / 2)).length = rest.length / 2 := by
  rw [List.length_take]
  omega

/-- The pivot of the tree over a row is in the middle, and the halves are rows. -/
theorem row_split (hrow : first :: rest = (List.range' a (rest.length + 1)).map spot)
    (hne : rest.length ≠ 0) :
    Tree.build first rest = .node (spot (a + rest.length / 2))
        (.build first (rest.take (rest.length / 2)))
        (.build (rest.getD (rest.length / 2) first) (rest.drop (rest.length / 2 + 1))) ∧
      first :: rest.take (rest.length / 2) =
        (List.range' a ((rest.take (rest.length / 2)).length + 1)).map spot ∧
      rest.getD (rest.length / 2) first :: rest.drop (rest.length / 2 + 1) =
        (List.range' (a + (rest.length / 2 + 1))
          ((rest.drop (rest.length / 2 + 1)).length + 1)).map spot := by
  obtain ⟨_, _, _, _, hupper, _⟩ := Tree.split_at_pivot first hne
  have hboth : (first :: rest.take (rest.length / 2)) ++ rest.drop (rest.length / 2) =
      first :: rest := by
    rw [List.cons_append, List.take_append_drop]
  have hlength : (first :: rest.take (rest.length / 2)).length +
      (rest.drop (rest.length / 2)).length = rest.length + 1 := by
    rw [← List.length_append, hboth, List.length_cons]
  rw [← hboth, ← hlength] at hrow
  obtain ⟨hlow, hhigh⟩ := row_append hrow
  refine ⟨?_, hlow, ?_⟩
  · have hpivot : (first :: rest).getD (rest.length / 2) first = spot (a + rest.length / 2) := by
      rw [hboth, hlength] at hrow
      rw [hrow, List.getD_eq_getElem?_getD, List.getElem?_map, List.getElem?_range' (by omega),
        Nat.one_mul]
      rfl
    rw [← hpivot, Tree.build, if_neg hne]
  · rw [← hupper, List.length_cons, List.length_cons, length_take_half] at hhigh
    exact hhigh

/-- The code of a row is emitted, wherever the parts in front of it end. -/
theorem exists_emit_row {k : Nat}
    (hrow : first :: rest = (List.range' a (rest.length + 1)).map spot)
    (hlength : rest.length < 2 ^ k) (hend : a + rest.length < 2 ^ 27) (hlow : 36 * a ≤ offset)
    (hhigh : offset + 19 * k ≤ 55 * a + 513) :
    ∃ pieces, (Tree.build first rest).emit (some 0x100000000) offset = .ok pieces := by
  have hbase : (0x100000000 : Address).toNat = 2 ^ 32 := rfl
  induction k generalizing first rest a offset with
  | zero =>
    have hnil : rest.length = 0 := by omega
    have hfirst : first = spot a := by
      rw [List.range'_succ, List.map_cons] at hrow
      exact (List.cons.inj hrow).1
    rw [Tree.build, if_pos hnil, hfirst]
    exact exists_emit_spot (by omega) hlow (by omega)
  | succ k ih =>
    by_cases hnil : rest.length = 0
    · exact ih hrow (by rw [hnil]; exact Nat.two_pow_pos k) hend hlow (by omega)
    obtain ⟨htree, hrow1, hrow2⟩ := row_split hrow hnil
    have htake := length_take_half rest
    have hdrop : (rest.drop (rest.length / 2 + 1)).length = rest.length - (rest.length / 2 + 1) :=
      List.length_drop
    have htest := codeSize_compareTo_spot (show a + rest.length / 2 < 2 ^ 27 by omega)
    rw [htree]
    refine exists_emit_node (fun size hsize => ?_) fun size low gap hsize hcode hgap => ?_
    · obtain ⟨low, hcode⟩ := ih hrow1 (by omega) (by omega)
        (show 36 * a ≤ offset + codeSize (compareTo (spot (a + rest.length / 2))) + size by omega)
        (by omega)
      have hbounds := row_size hrow1 (by omega) hcode
      exact ⟨low, hcode, by omega⟩
    · have hbounds := row_size hrow1 (by omega) hcode
      exact ih hrow2 (by omega) (by omega) (by omega) (by omega)

/-- The tree over enough addresses in a row is emitted, but is left properly for no word above the
pivot. -/
theorem row_stray (hrow : first :: rest = (List.range' 0 (rest.length + 1)).map spot)
    (hlow : 119304648 ≤ rest.length) (hhigh : rest.length < 2 ^ 27) :
    ∃ pieces, (Tree.build first rest).emit (some 0x100000000) 0 = .ok pieces ∧
      ∀ s : State, spot (rest.length / 2) < (s.regs .rdx).toInt →
        ∀ found, ¬LeavesBy pieces 0x100000000 0 s found := by
  obtain ⟨pieces, hpieces⟩ : ∃ pieces,
      (Tree.build first rest).emit (some 0x100000000) 0 = .ok pieces :=
    exists_emit_row hrow hhigh (by omega) (Nat.le_refl 0) (by decide)
  refine ⟨pieces, hpieces, fun s hgt found => ?_⟩
  obtain ⟨htree, hrow1, _⟩ := row_split hrow (by omega)
  rw [htree, Nat.zero_add] at hpieces
  obtain ⟨rel, low, gap, high, hcode⟩ := emit_node_eq_ok hpieces
  -- the lower half takes between two and four gigabytes
  have htake := length_take_half rest
  have hsize := row_size hrow1 (by omega) hcode.lower_eq
  have htest := codeSize_compareTo_spot (show rest.length / 2 < 2 ^ 27 by omega)
  have hgap := hcode.gap_lt
  have hspot : spot (rest.length / 2) = 2 ^ 32 + 45 * (rest.length / 2 : Nat) := rfl
  exact hcode.not_leavesBy ⟨by omega, by omega⟩ (hcode.branch_back (by omega) (by omega)) hgt found

/-- With enough addresses in a row, a dispatcher is emitted that is left properly for no word above
the address in the middle. -/
theorem rowTargets_stray (count : Nat) (hlow : 119304649 ≤ count) (hhigh : count ≤ 2 ^ 27) :
    ∃ pieces, emit (rowTargets count) (some 0x100000000) = .ok pieces ∧
      ∀ s : State, spot ((count - 1) / 2) < (s.regs .rdx).toInt →
        ∀ found, ¬LeavesBy pieces 0x100000000 0 s found := by
  have hsorted := sortedTargets_rowTargets hhigh
  have hlength : (sortedTargets (rowTargets count)).length = count := by simp [hsorted]
  obtain ⟨first, rest, hlist⟩ : ∃ first rest, sortedTargets (rowTargets count) = first :: rest :=
    List.exists_cons_of_length_pos (by omega)
  rw [hlist, List.length_cons] at hlength
  rw [hlist, ← hlength] at hsorted
  obtain ⟨pieces, hpieces, hstray⟩ := row_stray hsorted (by omega) (by omega)
  refine ⟨pieces, ?_, fun s hgt => hstray s ?_⟩
  · rw [emit, hlist]
    exact hpieces
  · rw [← hlength] at hgt
    exact hgt

end Row

/-- A caller with the last of a hundred and thirty million addresses in all registers. -/
def lastCaller : State where
  regs := fun _ => 10144967251
  flags := none
  mem := ⟨fun _ => 0, fun _ => true⟩

/-- A hundred and thirty million addresses in a row: the last one is not found. -/
theorem rowTargets_stray_lastCaller :
    ∃ pieces, emit (rowTargets 130000000) (some 0x100000000) = .ok pieces ∧
      ¬LeavesBy pieces 0x100000000 0 lastCaller
        (∃ a ∈ rowTargets 130000000, a.toBitVec = lastCaller.regs .rdx) := by
  obtain ⟨pieces, hpieces, hstray⟩ := rowTargets_stray 130000000 (by decide) (by decide)
  exact ⟨pieces, hpieces, hstray lastCaller (by decide) _⟩

end NativeForge.Dispatcher
