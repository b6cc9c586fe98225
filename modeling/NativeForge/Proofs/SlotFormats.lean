import Mathlib.Data.List.Forall2
import NativeForge.Proofs.Outcome
import NativeForge.Virtual.ProgramFile

/-!
# The formats of instruction slots

Slots are kept as bytes and as hexadecimal text. One writer and two readers belong together: the
bytes of a row of slots hold the row, and so does every text that spells the bytes, whatever the
case of its digits and wherever it has white space. Every byte string with a multiple of eight bytes
holds slots, and these have the bytes of the string.

A text is looser than what a slot is written as: a byte may also be a plus sign and one digit. What
makes a text unreadable is said on its characters alone, and a file is refused for the first text
that is unreadable.
-/

namespace NativeForge

namespace Virtual

namespace Insn

/-- The lower half of a byte. -/
theorem toNat_lowHalf (b : UInt8) : (b &&& 0x0F).toNat = b.toNat % 2 ^ 4 := by
  rw [UInt8.toNat_and]
  exact Nat.and_two_pow_sub_one_eq_mod b.toNat 4

/-- The upper half of a byte. -/
theorem toNat_highHalf (b : UInt8) : (b >>> 4).toNat = b.toNat / 2 ^ 4 := by
  rw [UInt8.toNat_shiftRight]
  exact Nat.shiftRight_eq_div_pow b.toNat 4

/-- The source register stands in the upper half of its byte, the destination in the lower one. -/
theorem toNat_registerByte (dst src : UInt8) :
    ((src <<< 4) ||| (dst &&& 0x0F)).toNat = 16 * (src.toNat % 16) + dst.toNat % 16 := by
  have hhigh : (src <<< 4).toNat = (src.toNat % 16) <<< 4 := by
    have hshift : (UInt8.toNat 4) % 8 = 4 := rfl
    rw [UInt8.toNat_shiftLeft, hshift, Nat.shiftLeft_eq, Nat.shiftLeft_eq]
    omega
  rw [UInt8.toNat_or, hhigh, toNat_lowHalf,
    ← Nat.shiftLeft_add_eq_or_of_lt (Nat.mod_lt _ (by decide)), Nat.shiftLeft_eq]
  omega

/-- The eight bytes of a slot with register numbers of four bits hold the slot. -/
theorem exists_ofBytes_eq {i : Insn} (hdst : i.dst ≤ 15) (hsrc : i.src ≤ 15) :
    ∃ b0 b1 b2 b3 b4 b5 b6 b7, i.encode = [b0, b1, b2, b3, b4, b5, b6, b7] ∧
      ofBytes b0 b1 b2 b3 b4 b5 b6 b7 = i := by
  obtain ⟨code, dst, src, off, imm⟩ := i
  refine ⟨_, _, _, _, _, _, _, _, rfl, ?_⟩
  have hdst : dst.toNat ≤ 15 := UInt8.le_iff_toNat_le.mp hdst
  have hsrc : src.toNat ≤ 15 := UInt8.le_iff_toNat_le.mp hsrc
  have hregisters := toNat_registerByte dst src
  have hoff := Bytes.value_littleEndian 2 off.toUInt16.toNat
  have himm := Bytes.value_littleEndian 4 imm.toUInt32.toNat
  have hoffLt := off.toUInt16.toNat_lt
  have himmLt := imm.toUInt32.toNat_lt
  rw [Nat.mod_eq_of_lt (by omega)] at hoff himm
  simp only [Bytes.littleEndian] at hoff himm
  simp only [ofBytes, mk.injEq, true_and]
  refine ⟨?_, ?_, ?_, ?_⟩
  · apply UInt8.toNat_inj.mp
    rw [toNat_lowHalf, hregisters]
    omega
  · apply UInt8.toNat_inj.mp
    rw [toNat_highHalf, hregisters]
    omega
  · rw [hoff]
    simp
  · rw [himm]
    simp

/-- The slot that eight bytes hold has these bytes. -/
theorem encode_ofBytes (b0 b1 b2 b3 b4 b5 b6 b7 : UInt8) :
    (ofBytes b0 b1 b2 b3 b4 b5 b6 b7).encode = [b0, b1, b2, b3, b4, b5, b6, b7] := by
  have hregisters : ((b1 >>> 4) <<< 4) ||| ((b1 &&& 0x0F) &&& 0x0F) = b1 := by
    have hb := b1.toNat_lt
    apply UInt8.toNat_inj.mp
    rw [toNat_registerByte, toNat_lowHalf, toNat_highHalf]
    omega
  have hoff : (UInt16.ofNat (Bytes.value [b2, b3])).toNat = Bytes.value [b2, b3] := by
    have h2 := b2.toNat_lt
    have h3 := b3.toNat_lt
    rw [UInt16.toNat_ofNat']
    simp only [Bytes.value]
    omega
  have himm : (UInt32.ofNat (Bytes.value [b4, b5, b6, b7])).toNat =
      Bytes.value [b4, b5, b6, b7] := by
    have h4 := b4.toNat_lt
    have h5 := b5.toNat_lt
    have h6 := b6.toNat_lt
    have h7 := b7.toNat_lt
    rw [UInt32.toNat_ofNat']
    simp only [Bytes.value]
    omega
  simp only [encode, ofBytes, Bytes.ofUInt16, Bytes.ofInt32, Bytes.ofUInt32, hregisters,
    UInt16.toUInt16_toInt16, UInt32.toUInt32_toInt32, hoff, himm]
  rw [show Bytes.littleEndian 2 (Bytes.value [b2, b3]) = [b2, b3] from
      Bytes.littleEndian_value [b2, b3],
    show Bytes.littleEndian 4 (Bytes.value [b4, b5, b6, b7]) = [b4, b5, b6, b7] from
      Bytes.littleEndian_value [b4, b5, b6, b7]]
  rfl

/-- The bytes of a row of slots hold the row. -/
theorem ofByteString?_flatMap_encode {insns : List Insn}
    (h : ∀ i ∈ insns, i.dst ≤ 15 ∧ i.src ≤ 15) :
    ofByteString? (insns.flatMap encode) = some insns := by
  induction insns with
  | nil => rfl
  | cons i rest ih =>
    obtain ⟨hdst, hsrc⟩ := h i (List.mem_cons_self ..)
    obtain ⟨b0, b1, b2, b3, b4, b5, b6, b7, hbytes, hi⟩ := exists_ofBytes_eq hdst hsrc
    have hrest := ih fun j hj => h j (List.mem_cons_of_mem _ hj)
    rw [List.flatMap_cons, hbytes]
    change (ofByteString? (rest.flatMap encode)).map (ofBytes b0 b1 b2 b3 b4 b5 b6 b7 :: ·) = _
    rw [hrest, hi]
    rfl

/-- A row of slots that was read has the bytes that it was read from. -/
theorem flatMap_encode_of_ofByteString? {bytes : List UInt8} {insns : List Insn}
    (h : ofByteString? bytes = some insns) : insns.flatMap encode = bytes := by
  induction bytes using ofByteString?.induct generalizing insns with
  | case1 =>
    cases h
    rfl
  | case2 b0 b1 b2 b3 b4 b5 b6 b7 rest ih =>
    obtain ⟨tail, htail, rfl⟩ := Option.map_eq_some_iff.mp h
    rw [List.flatMap_cons, encode_ofBytes, ih htail]
    rfl
  | case3 bytes hnil hlong =>
    rw [ofByteString?.eq_3 _ hnil hlong] at h
    cases h

/-- A byte string that is long enough starts with eight bytes. -/
theorem exists_eight {bytes : List UInt8} (h : 8 ≤ bytes.length) :
    ∃ b0 b1 b2 b3 b4 b5 b6 b7 rest,
      bytes = b0 :: b1 :: b2 :: b3 :: b4 :: b5 :: b6 :: b7 :: rest := by
  rcases bytes with _ | ⟨b0, _ | ⟨b1, _ | ⟨b2, _ | ⟨b3, _ | ⟨b4, _ | ⟨b5, _ | ⟨b6, _ |
    ⟨b7, rest⟩⟩⟩⟩⟩⟩⟩⟩
  rotate_right
  · exact ⟨b0, b1, b2, b3, b4, b5, b6, b7, rest, rfl⟩
  all_goals simp at h

/-- The byte strings that hold slots are those with a multiple of eight bytes. -/
theorem exists_ofByteString?_iff {bytes : List UInt8} :
    (∃ insns, ofByteString? bytes = some insns) ↔ bytes.length % 8 = 0 := by
  induction bytes using ofByteString?.induct with
  | case1 => exact ⟨fun _ => rfl, fun _ => ⟨[], rfl⟩⟩
  | case2 b0 b1 b2 b3 b4 b5 b6 b7 rest ih =>
    have hlength : (b0 :: b1 :: b2 :: b3 :: b4 :: b5 :: b6 :: b7 :: rest).length % 8 =
        rest.length % 8 := by
      simp only [List.length_cons]
      omega
    rw [hlength, ← ih, ofByteString?]
    simp only [Option.map_eq_some_iff]
    constructor
    · rintro ⟨_, insns, h, _⟩
      exact ⟨insns, h⟩
    · rintro ⟨insns, h⟩
      exact ⟨_, insns, h, rfl⟩
  | case3 bytes hnil hlong =>
    -- One to seven bytes are left, and none of these numbers is a multiple of eight.
    have hshort : bytes.length % 8 ≠ 0 := by
      intro height
      have hpos := List.length_pos_iff.mpr hnil
      obtain ⟨b0, b1, b2, b3, b4, b5, b6, b7, rest, rfl⟩ :=
        exists_eight (by omega : 8 ≤ bytes.length)
      exact hlong b0 b1 b2 b3 b4 b5 b6 b7 rest rfl
    rw [ofByteString?.eq_3 _ hnil hlong]
    simp [hshort]

end Insn

end Virtual

namespace Text

namespace Hex

/-- A digit in either case. -/
def IsDigit (c : Char) : Prop :=
  '0' ≤ c ∧ c ≤ '9' ∨ 'a' ≤ c ∧ c ≤ 'f' ∨ 'A' ≤ c ∧ c ≤ 'F'

instance (c : Char) : Decidable (IsDigit c) := inferInstanceAs (Decidable (_ ∨ _))

/-- Characters are ordered by their code points. -/
theorem char_le_iff (a b : Char) : a ≤ b ↔ a.toNat ≤ b.toNat := UInt32.le_iff_toNat_le

/-- The value of a digit by its code point. -/
theorem digitValue?_eq_toNat (c : Char) :
    digitValue? c =
      if 48 ≤ c.toNat ∧ c.toNat ≤ 57 then some (c.toNat - 48)
      else if 97 ≤ c.toNat ∧ c.toNat ≤ 102 then some (c.toNat - 87)
      else if 65 ≤ c.toNat ∧ c.toNat ≤ 70 then some (c.toNat - 55)
      else none := by
  unfold digitValue?
  simp only [char_le_iff]
  rfl

/-- The digits are the characters with a value. -/
theorem isDigit_iff {c : Char} : IsDigit c ↔ ∃ n, digitValue? c = some n := by
  unfold digitValue? IsDigit
  split
  · simp_all
  · split
    · simp_all
    · split <;> simp_all

/-- A digit is in ASCII and no white space. -/
theorem of_digitValue? {c : Char} {n : Nat} (h : digitValue? c = some n) :
    c.toNat < 128 ∧ isBlank c = false := by
  have hrange : 48 ≤ c.toNat ∧ c.toNat < 128 := by
    rw [digitValue?_eq_toNat] at h
    grind
  refine ⟨hrange.2, ?_⟩
  unfold isBlank
  rw [List.any_eq_false]
  intro range hmem
  -- Every range of white space ends below the digits or starts behind ASCII.
  have houtside : range.2 < 48 ∨ 128 ≤ range.1 := by
    revert range
    decide
  obtain ⟨low, high⟩ := range
  simp only [decide_eq_true_eq]
  dsimp only at houtside
  omega

/-- Lower case moves the letters A to Z by thirty-two code points. -/
theorem toNat_toLower (c : Char) :
    c.toLower.toNat = if 65 ≤ c.toNat ∧ c.toNat ≤ 90 then c.toNat + 32 else c.toNat := by
  have hupper : (c.val ≥ 'A'.val ∧ c.val ≤ 'Z'.val) ↔ 65 ≤ c.toNat ∧ c.toNat ≤ 90 := by
    rw [ge_iff_le, UInt32.le_iff_toNat_le, UInt32.le_iff_toNat_le]
    rfl
  unfold Char.toLower
  split
  · rename_i h
    have hrange := hupper.mp h
    rw [if_pos hrange]
    change (c.val + 32).toNat = c.val.toNat + 32
    rw [UInt32.toNat_add]
    exact Nat.mod_eq_of_lt (Nat.lt_of_le_of_lt (Nat.add_le_add_right hrange.2 32) (by decide))
  · rename_i h
    rw [if_neg fun hrange => h (hupper.mpr hrange)]

/-- A digit has one value in both cases. -/
theorem digitValue?_toLower (c : Char) : digitValue? c.toLower = digitValue? c := by
  rw [digitValue?_eq_toNat, digitValue?_eq_toNat, toNat_toLower]
  grind

/-- The digit of a number has that number as its value. -/
theorem digitValue?_digit {n : Nat} (h : n < 16) : digitValue? (digit n) = some n := by
  revert n
  decide

end Hex

/-- A text spells digits: they stand in it in order, in either case, with white space anywhere. -/
inductive Spells : List Char → List Char → Prop where
  /-- Nothing is left to spell. -/
  | nil : Spells [] []
  /-- White space spells nothing. -/
  | blank {digits text : List Char} {c : Char} (hc : isBlank c = true) (h : Spells digits text) :
    Spells digits (c :: text)
  /-- A digit is spelled in either case. -/
  | digit {digits text : List Char} {d c : Char} (hc : c.toLower = d.toLower)
    (h : Spells digits text) : Spells (d :: digits) (c :: text)

/-- A text that has the digits of another one in either case, but for white space, spells them. -/
theorem spells_of_filter {digits text : List Char}
    (h : (text.filter fun c => !isBlank c).map Char.toLower = digits.map Char.toLower) :
    Spells digits text := by
  induction text generalizing digits with
  | nil =>
    obtain rfl := List.map_eq_nil_iff.mp h.symm
    exact .nil
  | cons c rest ih =>
    by_cases hc : isBlank c = true
    · rw [List.filter_cons_of_neg (by simp [hc])] at h
      exact .blank hc (ih h)
    · rw [List.filter_cons_of_pos (by simp [hc]), List.map_cons] at h
      obtain ⟨d, digits, rfl, hd, h⟩ := List.map_eq_cons_iff.mp h.symm
      exact .digit hd.symm (ih h.symm)

/-- Without its white space, a text has the values of the digits that it spells. -/
theorem Spells.values_eq {digits text : List Char} (h : Spells digits text)
    (hdigits : ∀ d ∈ digits, ∃ n, Hex.digitValue? d = some n) :
    (text.filter fun c => !isBlank c).map Hex.digitValue? = digits.map Hex.digitValue? := by
  induction h with
  | nil => rfl
  | @blank digits text c hc _ ih =>
    rw [List.filter_cons_of_neg (by simp [hc])]
    exact ih hdigits
  | @digit digits text d c hc _ ih =>
    obtain ⟨n, hn⟩ := hdigits d (List.mem_cons_self ..)
    have hvalue : Hex.digitValue? c = Hex.digitValue? d := by
      rw [← Hex.digitValue?_toLower c, hc, Hex.digitValue?_toLower]
    have hvisible := (Hex.of_digitValue? (hvalue.trans hn)).2
    rw [List.filter_cons_of_pos (by simp [hvisible]), List.map_cons, List.map_cons, hvalue,
      ih fun e he => hdigits e (List.mem_cons_of_mem _ he)]

end Text

namespace Virtual

open Text

/-- Two characters write a byte: two digits, or a plus sign and one digit. -/
def IsPair (first second : Char) : Prop :=
  Hex.IsDigit first ∧ Hex.IsDigit second ∨ first = '+' ∧ Hex.IsDigit second

/-- Which pairs of characters write a byte. -/
theorem isPair_iff {first second : Char} :
    IsPair first second ↔ ∃ b, byteOfPair? first second = some b := by
  unfold byteOfPair? IsPair
  by_cases hplus : first = '+'
  · have hnone : Hex.digitValue? '+' = none := rfl
    subst hplus
    simp [Hex.isDigit_iff, hnone]
  · simp [Hex.isDigit_iff, hplus, Option.bind_eq_some_iff]

/-- The two digits of a byte, in either case, write the byte. -/
theorem byteOfPair?_of_values {first second : Char} {b : UInt8}
    (hfirst : Hex.digitValue? first = some (b.toNat / 16))
    (hsecond : Hex.digitValue? second = some (b.toNat % 16)) :
    byteOfPair? first second = some b := by
  have hne : first ≠ '+' := by
    rintro rfl
    cases hfirst
  unfold byteOfPair?
  rw [if_neg hne, hfirst, hsecond]
  change some (UInt8.ofNat (16 * (b.toNat / 16) + b.toNat % 16)) = some b
  rw [Nat.div_add_mod, UInt8.ofNat_toNat]

/-- Characters with the values of the digits of a byte string write the byte string. -/
theorem bytesOfPairs_of_values {cs : List Char} {bytes : List UInt8}
    (h : cs.map Hex.digitValue? = (bytes.flatMap Hex.byteChars).map Hex.digitValue?) :
    bytesOfPairs cs = .ok bytes := by
  induction bytes generalizing cs with
  | nil =>
    obtain rfl := List.map_eq_nil_iff.mp h
    rfl
  | cons b rest ih =>
    have hb := b.toNat_lt
    have hdigits : (Hex.byteChars b ++ rest.flatMap Hex.byteChars).map Hex.digitValue? =
        some (b.toNat / 16) :: some (b.toNat % 16) ::
          (rest.flatMap Hex.byteChars).map Hex.digitValue? := by
      rw [Hex.byteChars, List.cons_append, List.cons_append, List.nil_append, List.map_cons,
        List.map_cons, Hex.digitValue?_digit (by omega), Hex.digitValue?_digit (by omega)]
    rw [List.flatMap_cons, hdigits] at h
    obtain ⟨first, cs, rfl, hfirst, h⟩ := List.map_eq_cons_iff.mp h
    obtain ⟨second, cs, rfl, hsecond, h⟩ := List.map_eq_cons_iff.mp h
    rw [bytesOfPairs, byteOfPair?_of_values hfirst hsecond, ih h]
    rfl

/-- A first pair of characters, and the bytes of the others. -/
theorem bytesOfPairs_cons {first second : Char} {rest : List Char} {b : UInt8}
    {bytes : List UInt8} (h : byteOfPair? first second = some b) :
    bytesOfPairs (first :: second :: rest) = .ok bytes ↔
      ∃ tail, bytesOfPairs rest = .ok tail ∧ b :: tail = bytes := by
  rw [bytesOfPairs, h]
  cases bytesOfPairs rest <;> simp [Functor.map, Except.map]

/-- A list without a first pair has at most one member. -/
theorem length_le_one_of_no_pair {cs : List Char}
    (h : ∀ first second rest, cs = first :: second :: rest → False) : cs.length ≤ 1 := by
  rcases cs with _ | ⟨first, _ | ⟨second, rest⟩⟩
  · exact Nat.zero_le 1
  · exact Nat.le_refl 1
  · exact (h first second rest rfl).elim

/-- Pairs of characters write as many bytes as there are pairs. -/
theorem length_bytesOfPairs {cs : List Char} {bytes : List UInt8}
    (h : bytesOfPairs cs = .ok bytes) : bytes.length = cs.length / 2 := by
  induction cs using bytesOfPairs.induct generalizing bytes with
  | case1 first second rest hpair =>
    rw [bytesOfPairs, hpair] at h
    cases h
  | case2 first second rest b hpair ih =>
    obtain ⟨tail, htail, rfl⟩ := (bytesOfPairs_cons hpair).mp h
    rw [List.length_cons, ih htail, List.length_cons, List.length_cons]
    omega
  | case3 cs hshort =>
    have hlength := length_le_one_of_no_pair hshort
    rw [bytesOfPairs.eq_2 _ hshort] at h
    cases h
    rw [List.length_nil]
    omega

/-- Characters write bytes if every pair of them does. -/
theorem exists_bytesOfPairs_iff {cs : List Char} :
    (∃ bytes, bytesOfPairs cs = .ok bytes) ↔ ∀ (k : Nat) (first second : Char),
      cs[2 * k]? = some first → cs[2 * k + 1]? = some second → IsPair first second := by
  induction cs using bytesOfPairs.induct with
  | case1 first second rest hpair =>
    rw [bytesOfPairs, hpair]
    constructor
    · rintro ⟨bytes, h⟩
      cases h
    · intro hall
      obtain ⟨b, hb⟩ := isPair_iff.mp (hall 0 first second rfl rfl)
      rw [hpair] at hb
      cases hb
  | case2 first second rest b hpair ih =>
    constructor
    · rintro ⟨bytes, h⟩ k x y hx hy
      obtain ⟨tail, htail, _⟩ := (bytesOfPairs_cons hpair).mp h
      cases k with
      | zero =>
        cases hx
        cases hy
        exact isPair_iff.mpr ⟨b, hpair⟩
      | succ k => exact ih.mp ⟨tail, htail⟩ k x y hx hy
    · intro hall
      obtain ⟨tail, htail⟩ := ih.mpr fun k x y hx hy => hall (k + 1) x y hx hy
      exact ⟨b :: tail, (bytesOfPairs_cons hpair).mpr ⟨tail, htail, rfl⟩⟩
  | case3 cs hshort =>
    have hlength := length_le_one_of_no_pair hshort
    rw [bytesOfPairs.eq_2 _ hshort]
    refine ⟨fun _ k first second _ hsecond => ?_, fun _ => ⟨[], rfl⟩⟩
    have hlt := (List.getElem?_eq_some_iff.mp hsecond).1
    omega

/-- The characters of a text that are no white space. -/
def visible (text : String) : List Char := text.toList.filter fun c => !isBlank c

/-- What makes the text of a slot unreadable. -/
inductive Unreadable (text : String) : Prop where
  /-- A character outside ASCII that is no white space. -/
  | nonAscii (c : Char) (hc : c ∈ visible text) (h : 128 ≤ c.toNat)
  /-- Not sixteen characters. -/
  | length (h : (visible text).length ≠ 16)
  /-- A pair of characters that writes no byte. -/
  | pair (k : Nat) (first second : Char) (hfirst : (visible text)[2 * k]? = some first)
    (hsecond : (visible text)[2 * k + 1]? = some second) (h : ¬IsPair first second)

namespace Insn

/-- Sixteen characters that write eight bytes are read as the slot of these bytes. -/
theorem ofText_of_bytes {text : String} {b0 b1 b2 b3 b4 b5 b6 b7 : UInt8}
    (hascii : ∀ c ∈ visible text, c.toNat < 128)
    (hlength : (visible text).length = 16)
    (hbytes : bytesOfPairs (visible text) = .ok [b0, b1, b2, b3, b4, b5, b6, b7]) :
    ofText text = .ok (ofBytes b0 b1 b2 b3 b4 b5 b6 b7) := by
  have hany : ¬((visible text).any fun c => 128 ≤ c.toNat) = true := by
    intro hany
    obtain ⟨c, hc, hle⟩ := List.any_eq_true.mp hany
    have hlt := hascii c hc
    have hle := of_decide_eq_true hle
    omega
  unfold visible at hany hlength hbytes
  unfold ofText
  rw [if_neg hany, if_neg (not_not_intro hlength), hbytes]
  rfl

/-- What a text has that is read as a slot. -/
theorem ofText_eq_ok {text : String} {i : Insn} (h : ofText text = .ok i) :
    (∀ c ∈ visible text, c.toNat < 128) ∧ (visible text).length = 16 ∧
      ∃ bytes, bytesOfPairs (visible text) = .ok bytes := by
  unfold ofText at h
  dsimp only at h
  split at h
  · cases h
  · rename_i hany
    split at h
    · cases h
    · rename_i hlength
      obtain ⟨bytes, hbytes, _⟩ := bind_eq_ok.mp h
      refine ⟨fun c hc => ?_, not_not.mp hlength, bytes, hbytes⟩
      by_contra hle
      exact hany (List.any_eq_true.mpr ⟨c, hc, decide_eq_true (by omega)⟩)

/-- The texts that are read as a slot are those that are not unreadable. -/
theorem exists_ofText_iff {text : String} : (∃ i, ofText text = .ok i) ↔ ¬Unreadable text := by
  constructor
  · rintro ⟨i, hi⟩ hbad
    obtain ⟨hascii, hlength, hbytes⟩ := ofText_eq_ok hi
    cases hbad with
    | nonAscii c hc h => exact absurd (hascii c hc) (by omega)
    | length h => exact h hlength
    | pair k first second hfirst hsecond h =>
      exact h (exists_bytesOfPairs_iff.mp hbytes k first second hfirst hsecond)
  · intro hgood
    have hascii : ∀ c ∈ visible text, c.toNat < 128 := fun c hc => by
      by_contra hle
      exact hgood (.nonAscii c hc (by omega))
    have hlength : (visible text).length = 16 := by
      by_contra hne
      exact hgood (.length hne)
    obtain ⟨bytes, hbytes⟩ := exists_bytesOfPairs_iff.mpr fun k first second hfirst hsecond => by
      by_contra hpair
      exact hgood (.pair k first second hfirst hsecond hpair)
    have height := length_bytesOfPairs hbytes
    rw [hlength] at height
    obtain ⟨b0, b1, b2, b3, b4, b5, b6, b7, rest, rfl⟩ :=
      exists_eight (by omega : 8 ≤ bytes.length)
    obtain rfl : rest = [] := List.eq_nil_of_length_eq_zero (by simpa using height)
    exact ⟨_, ofText_of_bytes hascii hlength hbytes⟩

/-- A slot with register numbers of four bits is read from every text that spells its bytes. -/
theorem ofText_of_spells {i : Insn} {text : String} (hdst : i.dst ≤ 15) (hsrc : i.src ≤ 15)
    (h : Spells (Hex.ofBytes i.encode).toList text.toList) : ofText text = .ok i := by
  obtain ⟨b0, b1, b2, b3, b4, b5, b6, b7, hencode, hi⟩ := exists_ofBytes_eq hdst hsrc
  have hdigits : ∀ d ∈ i.encode.flatMap Hex.byteChars, ∃ n, Hex.digitValue? d = some n := by
    intro d hd
    obtain ⟨b, _, hd⟩ := List.mem_flatMap.mp hd
    have hb := b.toNat_lt
    rcases List.mem_pair.mp hd with rfl | rfl
    · exact ⟨_, Hex.digitValue?_digit (by omega)⟩
    · exact ⟨_, Hex.digitValue?_digit (by omega)⟩
  rw [Hex.ofBytes, String.toList_ofList] at h
  have hvalues : (visible text).map Hex.digitValue? =
      (i.encode.flatMap Hex.byteChars).map Hex.digitValue? := h.values_eq hdigits
  have hascii : ∀ c ∈ visible text, c.toNat < 128 := by
    intro c hc
    have hmem := List.mem_map_of_mem (f := Hex.digitValue?) hc
    rw [hvalues] at hmem
    obtain ⟨d, hd, heq⟩ := List.mem_map.mp hmem
    obtain ⟨n, hn⟩ := hdigits d hd
    exact (Hex.of_digitValue? (heq.symm.trans hn)).1
  have hlength : (visible text).length = 16 := by
    have hlength := congrArg List.length hvalues
    rw [List.length_map, List.length_map, hencode] at hlength
    exact hlength
  have hbytes := bytesOfPairs_of_values hvalues
  rw [hencode] at hbytes
  rw [ofText_of_bytes hascii hlength hbytes, hi]

end Insn

/-- The texts of slots are read in order, numbered one by one. -/
theorem insnsOfTexts_inOrder :
    InOrder (fun index text => (Insn.ofText text).mapError (LoadError.badInsn index)) 1
      insnsOfTexts := by
  refine ⟨fun _ => rfl, fun index text rest => ?_⟩
  rw [insnsOfTexts]
  cases Insn.ofText text with
  | error fault => rfl
  | ok i => cases insnsOfTexts (index + 1) rest <;> rfl

/-- Texts that are read one by one are read as a row. -/
theorem insnsOfTexts_of_forall₂ {insns : List Insn} {texts : List String}
    (h : List.Forall₂ (fun i text => Insn.ofText text = .ok i) insns texts) (index : Nat) :
    insnsOfTexts index texts = .ok insns := by
  induction h generalizing index with
  | nil => rfl
  | cons hfirst _ ih =>
    rw [insnsOfTexts, hfirst]
    simp only [ih]
    rfl

/-- The texts that are refused as a slot are the unreadable ones. -/
theorem exists_fault_iff {text : String} :
    (∃ fault, Insn.ofText text = .error fault) ↔ Unreadable text := by
  rw [← not_iff_not, ← Insn.exists_ofText_iff]
  cases Insn.ofText text <;> simp

/-- The text with a number is the first unreadable one of a row. -/
def FirstUnreadable (texts : List String) (index : Nat) : Prop :=
  (∃ text, texts[index]? = some text ∧ Unreadable text) ∧
    ∀ j < index, ∀ earlier, texts[j]? = some earlier → ¬Unreadable earlier

/-- A row of texts is refused for its first unreadable one. -/
theorem exists_badInsn_iff {texts : List String} {index : Nat} :
    (∃ fault, insnsOfTexts 0 texts = .error (.badInsn index fault)) ↔
      FirstUnreadable texts index := by
  simp only [insnsOfTexts_inOrder.eq_error_iff, mapError_eq_ok, mapError_eq_error, Nat.zero_add,
    Nat.mul_one, Insn.exists_ofText_iff, LoadError.badInsn.injEq]
  constructor
  · rintro ⟨fault, i, text, hi, ⟨cause, hcause, rfl, _⟩, hearlier⟩
    exact ⟨⟨text, hi, exists_fault_iff.mp ⟨cause, hcause⟩⟩, hearlier⟩
  · rintro ⟨⟨text, hi, hbad⟩, hearlier⟩
    obtain ⟨fault, hfault⟩ := exists_fault_iff.mpr hbad
    exact ⟨fault, index, text, hi, ⟨fault, hfault, rfl, rfl⟩, hearlier⟩

/-- A row of texts is read if none of them is unreadable, and otherwise has a first unreadable
one. -/
theorem insnsOfTexts_cases (texts : List String) :
    ((∃ insns, insnsOfTexts 0 texts = .ok insns) ∧ ∀ text ∈ texts, ¬Unreadable text) ∨
      ∃ index fault, insnsOfTexts 0 texts = .error (.badInsn index fault) := by
  cases h : insnsOfTexts 0 texts with
  | ok insns =>
    have hall := insnsOfTexts_inOrder.exists_eq_ok_iff.mp ⟨insns, h⟩
    refine .inl ⟨⟨insns, rfl⟩, fun text htext => ?_⟩
    obtain ⟨i, hi⟩ := List.mem_iff_getElem?.mp htext
    obtain ⟨insn, hinsn⟩ := hall i text hi
    exact Insn.exists_ofText_iff.mp ⟨insn, mapError_eq_ok.mp hinsn⟩
  | error cause =>
    obtain ⟨i, text, _, hstep, _⟩ := insnsOfTexts_inOrder.eq_error_iff.mp h
    obtain ⟨fault, _, hcause⟩ := mapError_eq_error.mp hstep
    exact .inr ⟨_, fault, congrArg Except.error hcause.symm⟩

namespace ProgramFile

/-- The tables of a file are made in order. -/
theorem tables_inOrder :
    InOrder (fun _ key => (tableFor key : Result LoadError TailCall.Table)) 0
      (fun _ keys => keys.mapM tableFor) :=
  ⟨fun _ => List.mapM_nil, fun _ _ _ => List.mapM_cons⟩

/-- A table that cannot be made is a crash, not a reported cause. -/
theorem tables_eq_error {keys : List UInt32} {f : Failure LoadError}
    (h : (keys.mapM tableFor : Result LoadError _) = .error f) : f = .crash := by
  obtain ⟨i, key, _, hstep, _⟩ := (tables_inOrder.eq_error_iff (n := 0)).mp h
  unfold tableFor at hstep
  split at hstep
  · cases hstep
  · cases hstep
    rfl

/-- Keys below the last 32-bit number have tables. -/
theorem exists_tables {keys : List UInt32} (h : ∀ key ∈ keys, key ≠ 0xFFFFFFFF) :
    ∃ tables, (keys.mapM tableFor : Result LoadError _) = .ok tables := by
  refine (tables_inOrder.exists_eq_ok_iff (n := 0)).mpr fun i key hi => ?_
  have hne : key.toNat ≠ 0xFFFFFFFF := fun heq =>
    h key (List.mem_of_getElem? hi) (UInt32.toNat_inj.mp heq)
  have hlt := key.toNat_lt
  have hsize : UInt32.size = 2 ^ 32 := rfl
  exact ⟨_, if_pos (by omega)⟩

/-- A file whose texts are read has a program with these slots. -/
theorem exists_program {file : ProgramFile} {insns : List Insn}
    (hinsns : insnsOfTexts 0 file.insns = .ok insns)
    (hkeys : ∀ key ∈ file.tailCallKeys, key ≠ 0xFFFFFFFF) :
    ∃ p tables, file.program = .ok (p, tables) ∧ p.insns = insns := by
  obtain ⟨tables, htables⟩ := exists_tables hkeys
  have hprogram : file.program = .ok ({
      name := file.name
      insns
      stackDepth := file.stackDepth
      isSubprogram := file.isSubprogram
      tailCallReachable := file.tailCallReachable
      descriptors := descriptorsFrom 0 file.tailCallKeys }, tables.toArray) :=
    bind_eq_ok.mpr ⟨insns, mapError_eq_ok.mpr hinsns, bind_eq_ok.mpr ⟨tables, htables, rfl⟩⟩
  exact ⟨_, _, hprogram, rfl⟩

/-- A file is refused for the text of a slot exactly as the row of its texts is. -/
theorem program_eq_badInsn_iff {file : ProgramFile} {index : Nat} {fault : InsnFault} :
    file.program = .error (.reported (.badInsn index fault)) ↔
      insnsOfTexts 0 file.insns = .error (.badInsn index fault) := by
  constructor
  · intro h
    rcases bind_eq_error.mp h with h | ⟨insns, _, h⟩
    · obtain ⟨cause, hcause, heq⟩ := mapError_eq_error.mp h
      rw [hcause, Failure.reported.inj heq]
    · rcases bind_eq_error.mp h with h | ⟨tables, _, h⟩
      · cases tables_eq_error h
      · cases h
  · intro h
    exact bind_eq_error.mpr (.inl (mapError_eq_error.mpr ⟨_, h, rfl⟩))

end ProgramFile

/-- Slots with register numbers of four bits are read back from their bytes, and from any texts that
spell these bytes, in order. A program file is refused for the first unreadable text of a slot, and
otherwise has a program unless a key has no table. -/
theorem slot_formats_round_trip :
    (∀ (name : String) (insns : List Insn), (∀ i ∈ insns, i.dst ≤ 15 ∧ i.src ≤ 15) →
      Program.ofByteString? name (insns.flatMap Insn.encode) = some { name, insns } ∧
      ∀ file : ProgramFile,
        List.Forall₂ (fun i text => Spells (Hex.ofBytes (Insn.encode i)).toList text.toList)
          insns file.insns →
        (∀ key ∈ file.tailCallKeys, key ≠ 0xFFFFFFFF) →
        ∃ p tables, file.program = .ok (p, tables) ∧ p.insns = insns) ∧
    (∀ (name : String) (bytes : List UInt8),
      ((∃ p, Program.ofByteString? name bytes = some p) ↔ bytes.length % 8 = 0) ∧
      ∀ p, Program.ofByteString? name bytes = some p → p.insns.flatMap Insn.encode = bytes) ∧
    ∀ file : ProgramFile,
      ((∃ index fault, file.program = .error (.reported (.badInsn index fault))) ↔
        ∃ text ∈ file.insns, Unreadable text) ∧
      (∀ index, (∃ fault, file.program = .error (.reported (.badInsn index fault))) ↔
        FirstUnreadable file.insns index) ∧
      ((∀ key ∈ file.tailCallKeys, key ≠ 0xFFFFFFFF) →
        (∀ text ∈ file.insns, ¬Unreadable text) → ∃ result, file.program = .ok result) := by
  refine ⟨fun name insns hregisters => ⟨?_, fun file htexts hkeys => ?_⟩, fun name bytes =>
    ⟨?_, fun p hp => ?_⟩, fun file => ⟨?_, fun index => ?_, fun hkeys hgood => ?_⟩⟩
  · rw [Program.ofByteString?, Insn.ofByteString?_flatMap_encode hregisters]
    rfl
  · have hread : List.Forall₂ (fun i text => Insn.ofText text = .ok i) insns file.insns := by
      refine ((List.forall₂_and_left _ _).mpr ⟨hregisters, htexts⟩).imp ?_
      rintro i text ⟨⟨hdst, hsrc⟩, hspells⟩
      exact Insn.ofText_of_spells hdst hsrc hspells
    exact ProgramFile.exists_program (insnsOfTexts_of_forall₂ hread 0) hkeys
  · rw [← Insn.exists_ofByteString?_iff]
    simp [Program.ofByteString?]
  · obtain ⟨insns, hinsns, rfl⟩ := Option.map_eq_some_iff.mp hp
    exact Insn.flatMap_encode_of_ofByteString? hinsns
  · simp only [ProgramFile.program_eq_badInsn_iff]
    constructor
    · rintro ⟨index, hindex⟩
      obtain ⟨⟨text, hget, hbad⟩, _⟩ := exists_badInsn_iff.mp hindex
      exact ⟨text, List.mem_of_getElem? hget, hbad⟩
    · -- The text need not be the first unreadable one; the reader finds that.
      rintro ⟨text, htext, hbad⟩
      rcases insnsOfTexts_cases file.insns with ⟨_, hgood⟩ | hfail
      · exact absurd hbad (hgood text htext)
      · exact hfail
  · simp only [ProgramFile.program_eq_badInsn_iff, exists_badInsn_iff]
  · rcases insnsOfTexts_cases file.insns with ⟨⟨insns, hinsns⟩, _⟩ | ⟨index, hfail⟩
    · obtain ⟨p, tables, hprogram, _⟩ := ProgramFile.exists_program hinsns hkeys
      exact ⟨_, hprogram⟩
    · obtain ⟨⟨text, hget, hbad⟩, _⟩ := exists_badInsn_iff.mp hfail
      exact absurd hbad (hgood text (List.mem_of_getElem? hget))

/-- A move of an immediate and a load below its base. -/
def spacedInsns : List Insn := [⟨0xB7, 1, 0, 0, 5⟩, ⟨0x79, 1, 2, -8, -1⟩]

/-- The two slots as text, with white space inside bytes and both cases. -/
def spacedFile : ProgramFile where
  insns := ["b 7\t01 0000 05000000", "7921F8fF\u3000FFffffFF "]
  tailCallKeys := [3]

/-- A byte written as a plus sign and one digit, in the only slot. -/
def signedFile : ProgramFile where
  insns := ["+5 00 00 00 00 00 00 00"]

/-- A short text between a readable one and one that is neither. -/
def shortFile : ProgramFile where
  insns := ["9500000000000000", "b7 00", "zz"]

/-- White space and case leave the slots of a file as they are, a plus sign is read, and the first
of two unreadable texts is the one that is reported. -/
theorem slot_formats_spacedFile :
    Program.ofByteString? "spaced" (spacedInsns.flatMap Insn.encode) =
      some { name := "spaced", insns := spacedInsns } ∧
    (∃ p tables, spacedFile.program = .ok (p, tables) ∧ p.insns = spacedInsns) ∧
    (∃ p, Program.ofByteString? "zeros" (List.replicate 16 0) = some p ∧
      p.insns.flatMap Insn.encode = List.replicate 16 0) ∧
    (∃ fault, shortFile.program = .error (.reported (.badInsn 1 fault))) ∧
    ∃ result, signedFile.program = .ok result := by
  obtain ⟨hslots, hbytes, htexts⟩ := slot_formats_round_trip
  obtain ⟨hread, hfile⟩ := hslots "spaced" spacedInsns (by decide)
  have hspells : List.Forall₂
      (fun i text => Spells (Hex.ofBytes (Insn.encode i)).toList text.toList)
      spacedInsns spacedFile.insns :=
    .cons (spells_of_filter (by decide +kernel)) (.cons (spells_of_filter (by decide +kernel)) .nil)
  obtain ⟨hmultiple, hback⟩ := hbytes "zeros" (List.replicate 16 0)
  obtain ⟨p, hp⟩ := hmultiple.mpr (by decide)
  have hfirst : FirstUnreadable shortFile.insns 1 := by
    refine ⟨⟨"b7 00", rfl, .length (by decide +kernel)⟩, fun j hj earlier hget => ?_⟩
    obtain rfl : j = 0 := by omega
    cases hget
    exact Insn.exists_ofText_iff.mp ⟨⟨0x95, 0, 0, 0, 0⟩, by decide +kernel⟩
  have hsigned : ∀ text ∈ signedFile.insns, ¬Unreadable text := by
    intro text htext
    obtain rfl := List.mem_singleton.mp htext
    exact Insn.exists_ofText_iff.mp ⟨⟨5, 0, 0, 0, 0⟩, by decide +kernel⟩
  have hkeys : ∀ key ∈ spacedFile.tailCallKeys, key ≠ 0xFFFFFFFF := by
    intro key hkey
    obtain rfl := List.mem_singleton.mp hkey
    decide
  exact ⟨hread, hfile spacedFile hspells hkeys, ⟨p, hp, hback p hp⟩,
    ((htexts shortFile).2.1 1).mpr hfirst,
    (htexts signedFile).2.2 (List.forall_mem_nil _) hsigned⟩

end Virtual

end NativeForge
