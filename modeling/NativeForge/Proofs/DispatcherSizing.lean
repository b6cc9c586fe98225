import Mathlib.Data.List.Sort
import NativeForge.Proofs.Causes
import NativeForge.Proofs.DispatcherExecution
import NativeForge.Session

/-!
# Sizes of dispatchers

A dispatcher is emitted twice: without an address to learn its size, and then for the address of the
image. Alignment counts from the address, and the form of every branch depends on the alignment
before it. At a multiple of sixteen both emissions come to the same pieces all the same: they differ
in the displacements of the direct jumps only, so the size that was asked for is the size that is
written.
-/

namespace NativeForge.Dispatcher

open X64

section Blanking

/-- A piece without the displacement of a direct jump. -/
def Piece.blank : Piece → Piece
  | .instr (.jcc .equal (.dword _)) => .instr (.jcc .equal (.dword 0))
  | p => p

/-- The byte belongs to the displacement of a direct jump. -/
def InJump (pieces : List Piece) (k : Nat) : Prop :=
  ∃ offset rel, Placed pieces offset [.instr (.jcc .equal (.dword rel))] ∧
    offset + 2 ≤ k ∧ k < offset + 6

/-- Pieces that are alike are equal, or both are direct jumps. -/
theorem Piece.eq_or_jump_of_blank {p q : Piece} (h : p.blank = q.blank) :
    p = q ∨ ∃ rel rel', p = .instr (.jcc .equal (.dword rel)) ∧
      q = .instr (.jcc .equal (.dword rel')) := by
  unfold blank at h
  split at h
  · split at h
    · exact .inr ⟨_, _, rfl, rfl⟩
    · exact .inr ⟨_, 0, rfl, h.symm⟩
  · split at h
    · exact .inr ⟨0, _, h, rfl⟩
    · exact .inl h

variable {pieces pieces' : List Piece} {k : Nat}

/-- Pieces that are alike have the same size. -/
theorem piecesSize_of_blank (h : pieces.map Piece.blank = pieces'.map Piece.blank) :
    piecesSize pieces = piecesSize pieces' := by
  induction pieces generalizing pieces' with
  | nil =>
    rw [List.map_nil, eq_comm, List.map_eq_nil_iff] at h
    rw [h]
  | cons p rest ih =>
    obtain ⟨q, rest', rfl, hq, hrest⟩ := List.map_eq_cons_iff.mp h.symm
    have hsize : p.bytes.length = q.bytes.length := by
      rcases Piece.eq_or_jump_of_blank hq.symm with rfl | ⟨_, _, rfl, rfl⟩ <;> rfl
    rw [piecesSize_cons, piecesSize_cons, hsize, ih hrest.symm]

/-- A displacement in the tail is a displacement in the whole. -/
theorem InJump.cons (p : Piece) (h : InJump pieces k) : InJump (p :: pieces) (p.bytes.length + k) := by
  obtain ⟨offset, rel, ⟨before, after, rfl, rfl⟩, hlo, hhi⟩ := h
  refine ⟨p.bytes.length + piecesSize before, rel, ⟨p :: before, after, rfl, rfl⟩, ?_, ?_⟩ <;> omega

/-- Pieces that are alike have the same bytes outside the displacements of direct jumps. -/
theorem inJump_of_ne (h : pieces.map Piece.blank = pieces'.map Piece.blank)
    (hk : (pieceBytes pieces)[k]? ≠ (pieceBytes pieces')[k]?) : InJump pieces k := by
  induction pieces generalizing pieces' k with
  | nil =>
    rw [List.map_nil, eq_comm, List.map_eq_nil_iff] at h
    exact absurd (by rw [h]) hk
  | cons p rest ih =>
    obtain ⟨q, rest', rfl, hq, hrest⟩ := List.map_eq_cons_iff.mp h.symm
    have hbytes : ∀ (x : Piece) (xs : List Piece), pieceBytes (x :: xs) = x.bytes ++ pieceBytes xs :=
      fun _ _ => List.flatMap_cons
    rw [hbytes, hbytes] at hk
    by_cases hin : k < p.bytes.length
    · rcases Piece.eq_or_jump_of_blank hq.symm with rfl | ⟨rel, rel', rfl, rfl⟩
      · rw [List.getElem?_append_left hin, List.getElem?_append_left hin] at hk
        exact absurd rfl hk
      · -- the operation code is the same
        have hlo : 2 ≤ k := by
          refine Nat.le_of_not_lt fun hlt => ?_
          obtain rfl | rfl : k = 0 ∨ k = 1 := by omega
          · exact hk rfl
          · exact hk rfl
        exact ⟨0, rel, ⟨[], rest, rfl, rfl⟩, hlo, by simpa using hin⟩
    · obtain ⟨j, rfl⟩ := Nat.exists_eq_add_of_le (Nat.le_of_not_lt hin)
      have hsize : q.bytes.length = p.bytes.length := by
        rcases Piece.eq_or_jump_of_blank hq with rfl | ⟨_, _, rfl, rfl⟩ <;> rfl
      rw [List.getElem?_append_right (by omega), List.getElem?_append_right (by omega), hsize,
        Nat.add_sub_cancel_left] at hk
      exact (ih hrest.symm hk).cons p

end Blanking

section Emission

variable {base : Address} {offset : Nat} {pieces : List Piece}

/-- At a multiple of sixteen, padding is the same as without an address. -/
theorem alignment_none (hbase : base.toNat % 16 = 0)
    (h : alignment (some base) offset = .ok pieces) : alignment none offset = .ok pieces := by
  obtain ⟨current, hc, h⟩ := bind_eq_ok.mp h
  obtain ⟨gap, hg, h⟩ := bind_eq_ok.mp h
  obtain ⟨_, rfl⟩ := word64_eq_ok.mp hc
  obtain ⟨hlt, rfl⟩ := alignmentGap_sixteen.mp hg
  rw [Option.getD_some] at hlt
  refine bind_eq_ok.mpr ⟨offset, word64_eq_ok.mpr ⟨?_, ?_⟩, ?_⟩
  · rw [Option.getD_none, UInt64.toNat_zero]
    omega
  · rw [Option.getD_none, UInt64.toNat_zero, Nat.zero_add]
  refine bind_eq_ok.mpr ⟨_, alignmentGap_sixteen.mpr ⟨by omega, rfl⟩, ?_⟩
  rw [← h, Option.getD_some]
  congr 3
  omega

/-- The code of a lower half from an offset on, with the padding behind it. -/
def Tree.padded (base : Option Address) (lower : Tree) (start : Nat) : Result Error (List Piece) := do
  let code ← lower.emit base start
  let padding ← alignment base (start + piecesSize code)
  return code ++ padding

/-- A lower half behind the branch over it, which is short if it can be. -/
def Tree.branched (base : Option Address) (lower : Tree) (start : Nat) :
    Result Error (List Piece) := do
  let short ← lower.padded base (start + 2)
  if fitsInt8 (piecesSize short) then
    return .instr (.jcc .greater (.byte (Int8.ofInt (piecesSize short)))) :: short
  else
    let long ← lower.padded base (start + 6)
    return .instr (.jcc .greater (.dword (Int32.ofInt (piecesSize long)))) :: long

/-- The code of a node: a comparison, the lower half behind its branch, and the upper half. -/
theorem Tree.emit_node (base : Option Address) (pivot : Int) (lower upper : Tree) (offset : Nat) :
    (Tree.node pivot lower upper).emit base offset = (do
      let start := offset + codeSize (compareTo pivot)
      let front ← lower.branched base start
      let rest ← upper.emit base (start + piecesSize front)
      return (compareTo pivot).map .instr ++ front ++ rest) := by
  simp only [Tree.emit, Tree.branched, Tree.padded, piecesSize_map_instr, bind_assoc, pure_bind,
    List.cons_append]
  refine congrArg _ (funext fun code => congrArg _ (funext fun padding => ?_))
  split
  · simp only [pure_bind]
  · simp only [bind_assoc, pure_bind]

/-- What a computation gives can be had from another one, but for the displacements of direct
jumps. -/
def Resized (r r' : Result Error (List Piece)) : Prop :=
  ∀ pieces, r = .ok pieces →
    ∃ sized, r' = .ok sized ∧ sized.map Piece.blank = pieces.map Piece.blank

variable {lower : Tree}

/-- A lower half with its padding, without an address. -/
theorem Tree.padded_none (hbase : base.toNat % 16 = 0)
    (h : ∀ start, Resized (lower.emit (some base) start) (lower.emit none start)) (start : Nat) :
    Resized (lower.padded (some base) start) (lower.padded none start) := by
  intro pieces hp
  obtain ⟨code, hcode, hp⟩ := bind_eq_ok.mp hp
  obtain ⟨padding, hpadding, hp⟩ := bind_eq_ok.mp hp
  obtain rfl := pure_eq_ok.mp hp
  obtain ⟨sized, hsized, hsame⟩ := h start code hcode
  rw [← piecesSize_of_blank hsame] at hpadding
  refine ⟨sized ++ padding, bind_eq_ok.mpr ⟨sized, hsized, ?_⟩, ?_⟩
  · exact bind_eq_ok.mpr ⟨padding, alignment_none hbase hpadding, rfl⟩
  · rw [List.map_append, List.map_append, hsame]

/-- A lower half behind its branch, without an address: the branch has the same form. -/
theorem Tree.branched_none
    (h : ∀ start, Resized (lower.padded (some base) start) (lower.padded none start)) (start : Nat) :
    Resized (lower.branched (some base) start) (lower.branched none start) := by
  intro pieces hp
  obtain ⟨short, hshort, hp⟩ := bind_eq_ok.mp hp
  obtain ⟨sized, hsized, hsame⟩ := h _ short hshort
  have hsize := piecesSize_of_blank hsame
  split at hp
  · rename_i hfits
    obtain rfl := pure_eq_ok.mp hp
    refine ⟨.instr (.jcc .greater (.byte (Int8.ofInt (piecesSize short)))) :: sized,
      bind_eq_ok.mpr ⟨sized, hsized, ?_⟩, ?_⟩
    · rw [hsize, if_pos hfits]
      rfl
    · rw [List.map_cons, List.map_cons, hsame]
  · rename_i hfits
    obtain ⟨long, hlong, hp⟩ := bind_eq_ok.mp hp
    obtain rfl := pure_eq_ok.mp hp
    obtain ⟨sized', hsized', hsame'⟩ := h _ long hlong
    refine ⟨.instr (.jcc .greater (.dword (Int32.ofInt (piecesSize sized')))) :: sized',
      bind_eq_ok.mpr ⟨sized, hsized, ?_⟩, ?_⟩
    · rw [hsize, if_neg hfits]
      exact bind_eq_ok.mpr ⟨sized', hsized', rfl⟩
    · rw [List.map_cons, List.map_cons, hsame', piecesSize_of_blank hsame']

/-- The code of a search tree at a multiple of sixteen can be had without an address, and is the same
but for the displacements of its direct jumps. -/
theorem Tree.emit_none (hbase : base.toNat % 16 = 0) (tree : Tree) (offset : Nat) :
    Resized (tree.emit (some base) offset) (tree.emit none offset) := by
  induction tree generalizing offset with
  | leaf target =>
    intro pieces h
    obtain ⟨rel, rfl, _⟩ := emit_leaf_eq_ok h
    refine ⟨_, rfl, ?_⟩
    simp only [List.map_append, List.map_cons, List.map_nil]
    rfl
  | node pivot lower upper ihl ihu =>
    intro pieces h
    rw [emit_node] at h ⊢
    obtain ⟨front, hfront, h⟩ := bind_eq_ok.mp h
    obtain ⟨rest, hrest, h⟩ := bind_eq_ok.mp h
    obtain rfl := pure_eq_ok.mp h
    obtain ⟨front', hfront', hsame⟩ := branched_none (padded_none hbase ihl) _ front hfront
    rw [← piecesSize_of_blank hsame] at hrest
    obtain ⟨rest', hrest', hsame'⟩ := ihu _ rest hrest
    refine ⟨(compareTo pivot).map .instr ++ front' ++ rest', ?_, ?_⟩
    · exact bind_eq_ok.mpr ⟨front', hfront', bind_eq_ok.mpr ⟨rest', hrest', rfl⟩⟩
    · rw [List.map_append, List.map_append, List.map_append, List.map_append, hsame, hsame']

end Emission

section Failures

/-- No defect was found. -/
def NoDefect (f : Failure Error) : Prop := ∀ d, f ≠ .reported (.internal d)

/-- What fails in no stage finds no defect. -/
theorem failsOnly_noDefect {α : Type} {r : Result Error α} (h : FailsOnly (Failure.From []) r) :
    FailsOnly NoDefect r := by
  rintro f hf d rfl
  exact absurd (h _ hf) List.not_mem_nil

/-- A failure of image memory is no defect. -/
theorem noDefect_ofMemory {α : Type} (r : Result MemoryError α) : FailsOnly NoDefect (ofMemory r) :=
  failsOnly_noDefect (failsOnly_ofMemory r)

/-- A direct jump that does not reach is no defect. -/
theorem noDefect_jumpIfEqual (base : Option Address) (offset : Nat) (target : Int) :
    FailsOnly NoDefect (jumpIfEqual base offset target) := by
  unfold jumpIfEqual
  split
  · exact failsOnly_ok _
  · refine .bind (failsOnly_noDefect (failsOnly_plus _ _)) fun _ =>
      .bind (failsOnly_noDefect (failsOnly_signedWord64 _)) fun _ => .ite (failsOnly_pure _) ?_
    exact failsOnly_error.mpr (by simp [NoDefect])

/-- Alignment finds no defect. -/
theorem noDefect_alignment (base : Option Address) (offset : Nat) :
    FailsOnly NoDefect (alignment base offset) := by
  refine failsOnly_noDefect (.bind (failsOnly_word64 _) fun _ => .bind ?_ fun _ => failsOnly_pure _)
  refine .bind (failsOnly_word64 _) fun _ => .ite failsOnly_crash (.ite failsOnly_crash ?_)
  exact failsOnly_ok _

/-- The emission of a search tree finds no defect. -/
theorem Tree.noDefect_emit (base : Option Address) (tree : Tree) (offset : Nat) :
    FailsOnly NoDefect (tree.emit base offset) := by
  induction tree generalizing offset with
  | leaf target => exact .bind (noDefect_jumpIfEqual _ _ _) fun _ => failsOnly_pure _
  | node pivot lower upper ihl ihu =>
    have hpadded : ∀ start, FailsOnly NoDefect (lower.padded base start) := fun start =>
      .bind (ihl start) fun _ => .bind (noDefect_alignment _ _) fun _ => failsOnly_pure _
    rw [emit_node]
    refine .bind (.bind (hpadded _) fun _ => .ite (failsOnly_pure _) ?_) fun _ =>
      .bind (ihu _) fun _ => failsOnly_pure _
    exact .bind (hpadded _) fun _ => failsOnly_pure _

/-- The emission of a dispatcher finds no defect. -/
theorem noDefect_emit (targets : List Address) (base : Option Address) :
    FailsOnly NoDefect (emit targets base) := by
  unfold emit
  split
  · exact failsOnly_ok _
  · exact Tree.noDefect_emit _ _ _

end Failures

section Sizing

variable {targets targets' : List Address} {base : Address} {sized : Nat}

/-- A dispatcher at a multiple of sixteen can be had without an address, and is the same but for the
displacements of its direct jumps. -/
theorem emit_none (hbase : base.toNat % 16 = 0) :
    Resized (emit targets (some base)) (emit targets none) := by
  intro pieces h
  unfold emit at h ⊢
  split at h
  · exact ⟨_, rfl, congrArg _ (Except.ok.inj h)⟩
  · exact Tree.emit_none hbase _ 0 pieces h

/-- The sorted addresses are the same for lists with the same members. -/
theorem sortedTargets_congr (h : ∀ a, a ∈ targets' ↔ a ∈ targets) :
    sortedTargets targets' = sortedTargets targets := by
  refine (pairwise_sortedTargets targets').eq_of_mem_iff (pairwise_sortedTargets targets) fun v => ?_
  rw [mem_sortedTargets, mem_sortedTargets]
  exact exists_congr fun a => and_congr_left fun _ => h a

/-- A dispatcher that is installed with its size never turns out to have another one. -/
theorem install_ne_dispatcherLength (h : sizeOf targets = .ok sized) (image : Image)
    (before after : Nat) :
    install targets sized image ≠ defect (.dispatcherLength before after) := by
  intro hinstall
  unfold install at hinstall
  split at hinstall
  · cases hinstall
  rename_i hbase
  rcases bind_eq_error.mp hinstall with hfill | ⟨filled, hfill, hinstall⟩
  · exact noDefect_ofMemory _ _ hfill _ rfl
  have hsame : filled.base = image.base := by
    have hfill := mapCause_eq_ok.mp hfill
    unfold Image.fill at hfill
    split at hfill
    · exact absurd hfill (report_ne_ok _ _)
    · cases hfill
      rfl
  rcases bind_eq_error.mp hinstall with hemit | ⟨code, hemit, hinstall⟩
  · exact noDefect_emit _ _ _ hemit _ rfl
  rw [hsame] at hemit
  obtain ⟨code', hsized, halike⟩ := emit_none (by omega) code hemit
  have hlength : (pieceBytes code).length = sized := by
    rw [sizeOf, hsized] at h
    rw [length_pieceBytes, ← piecesSize_of_blank halike]
    exact Except.ok.inj h
  dsimp only at hinstall
  rw [if_neg (not_not_intro hlength)] at hinstall
  rcases bind_eq_error.mp hinstall with hwrite | ⟨_, _, hlock⟩
  · exact noDefect_ofMemory _ _ hwrite _ rfl
  · exact noDefect_ofMemory _ _ (bind_pure_eq_error.mp hlock) _ rfl

/-- A session never answers that a dispatcher changed its length. -/
theorem session_ne_dispatcherLength (s : Session) (targets : List Address) (before after : Nat) :
    (s.dispatcher targets).2 ≠ .failed (.reported (.internal (.dispatcherLength before after))) := by
  intro h
  unfold Session.dispatcher at h
  split at h
  · rename_i failure hsize
    obtain rfl := Answer.failed.inj h
    exact noDefect_emit _ _ _ (bind_pure_eq_error.mp hsize) _ rfl
  rename_i sized hsize
  split at h
  · rename_i failure halloc
    obtain rfl := Answer.failed.inj h
    exact noDefect_ofMemory _ _ halloc _ rfl
  split at h
  · rename_i failure hinstall
    obtain rfl := Answer.failed.inj h
    exact install_ne_dispatcherLength hsize _ _ _ hinstall
  · cases h

/-- Two dispatchers have the same bytes but for the displacements of their direct jumps, which are in
the same places. -/
structure AgreeOutsideJumps (pieces pieces' : List Piece) : Prop where
  /-- There are as many bytes. -/
  length_eq : (pieceBytes pieces).length = (pieceBytes pieces').length
  /-- A byte that differs belongs to a displacement in both of them. -/
  inJump : ∀ k, (pieceBytes pieces)[k]? ≠ (pieceBytes pieces')[k]? →
    InJump pieces k ∧ InJump pieces' k

/-- A dispatcher that can be emitted for a multiple of sixteen can be emitted without an address,
with as many bytes and the same ones outside the displacements of its direct jumps. So a dispatcher
that is installed never turns out to have another size than it was asked for. -/
theorem dispatcher_keeps_size (targets : List Address) :
    (∀ (base : Address) code, base.toNat % 16 = 0 → emit targets (some base) = .ok code →
      ∃ sized, emit targets none = .ok sized ∧ AgreeOutsideJumps sized code) ∧
    (∀ targets' base, (∀ a, a ∈ targets' ↔ a ∈ targets) → emit targets' base = emit targets base) ∧
    (∀ sized image before after, sizeOf targets = .ok sized →
      install targets sized image ≠ defect (.dispatcherLength before after)) ∧
    ∀ (s : Session) before after,
      (s.dispatcher targets).2 ≠ .failed (.reported (.internal (.dispatcherLength before after))) := by
  refine ⟨fun base code hbase h => ?_, fun targets' base h => ?_,
    fun sized image before after h => install_ne_dispatcherLength h image before after,
    fun s before after => session_ne_dispatcherLength s targets before after⟩
  · obtain ⟨sized, hsized, halike⟩ := emit_none hbase code h
    refine ⟨sized, hsized, ?_, fun k hk => ?_⟩
    · rw [length_pieceBytes, length_pieceBytes, piecesSize_of_blank halike]
    · exact ⟨inJump_of_ne halike hk, inJump_of_ne halike.symm (Ne.symm hk)⟩
  · rw [emit, emit, sortedTargets_congr h]

/-- The dispatcher over `mixedTargets`, which has branches of both forms, differs from the one without
an address in displacements only; from the addresses in another order, each of them twice, it comes
out the same, and in its image it has the size that was asked for. -/
theorem keeps_size_mixedTargets :
    ∃ code sized, emit mixedTargets (some 0x80000000) = .ok code ∧
      emit mixedTargets none = .ok sized ∧ pieceBytes sized ≠ pieceBytes code ∧
      AgreeOutsideJumps sized code ∧
      emit (mixedTargets.reverse ++ mixedTargets) (some 0x80000000) = .ok code ∧
      ∀ before after, install mixedTargets (piecesSize sized) (.blank 0x80000000 4096) ≠
        defect (.dispatcherLength before after) := by
  obtain ⟨hagree, hset, hinstall, _⟩ := dispatcher_keeps_size mixedTargets
  have hemit : ((emit mixedTargets (some 0x80000000)).toOption.map fun code =>
      (emit mixedTargets none).toOption.map fun sized =>
        decide (pieceBytes sized ≠ pieceBytes code)) = some (some true) := by
    decide +kernel
  obtain ⟨code, hcode, hemit⟩ := Option.map_eq_some_iff.mp hemit
  have hcode := toOption_eq_some.mp hcode
  obtain ⟨sized, hsized, halike⟩ := hagree _ code (by decide) hcode
  rw [hsized] at hemit
  refine ⟨code, sized, hcode, hsized, decide_eq_true_iff.mp (Option.some.inj hemit), halike, ?_, ?_⟩
  · rw [hset _ _ fun a => by simp, hcode]
  · refine fun before after => hinstall _ _ before after ?_
    rw [sizeOf, hsized]
    rfl

end Sizing

end NativeForge.Dispatcher
