import Mathlib.Algebra.Group.Int.Defs
import Mathlib.Algebra.Group.Nat.Defs
import NativeForge.Error

/-!
# Successful outcomes

A computation that ends with a value ran through all its parts. The lemmas here take a successful
outcome apart, so that later proofs name the intermediate values and never open the monad. A run
over a list that stops at the first failure has a value if every step does, and otherwise fails as
the first step that does not.
-/

namespace NativeForge

/-- A successful sequence has a successful first part. -/
theorem bind_eq_ok {ε α β : Type} {first : Except ε α} {next : α → Except ε β} {b : β} :
    (first >>= next) = .ok b ↔ ∃ a, first = .ok a ∧ next a = .ok b := by
  cases first <;> simp [bind, Except.bind]

/-- A failed sequence failed in its first part or behind it. -/
theorem bind_eq_error {ε α β : Type} {first : Except ε α} {next : α → Except ε β} {e : ε} :
    (first >>= next) = .error e ↔
      first = .error e ∨ ∃ a, first = .ok a ∧ next a = .error e := by
  cases first <;> simp [bind, Except.bind]

/-- Returning a value made from a result fails as the result does. -/
theorem bind_pure_eq_error {ε α β : Type} {first : Except ε α} {f : α → β} {e : ε} :
    (first >>= fun a => pure (f a)) = .error e ↔ first = .error e := by
  cases first <;> simp [bind, Except.bind, pure, Except.pure]

/-- Returning a value succeeds with that value. -/
theorem pure_eq_ok {ε α : Type} {a b : α} : (pure a : Except ε α) = .ok b ↔ a = b := by
  simp [pure, Except.pure]

/-- A value is a successful outcome, failures set aside. -/
theorem toOption_eq_some {ε α : Type} {r : Except ε α} {a : α} : r.toOption = some a ↔ r = .ok a := by
  cases r <;> simp [Except.toOption]

/-- A reported cause is no value. -/
@[simp]
theorem report_ne_ok {ε α : Type} (cause : ε) (a : α) : (report cause : Result ε α) ≠ .ok a := by
  simp [report]

/-- A crash is no value. -/
@[simp]
theorem crash_ne_ok {ε α : Type} (a : α) : (crash : Result ε α) ≠ .ok a := by
  simp [crash]

/-- A broken promise is no value. -/
@[simp]
theorem defect_ne_ok {α : Type} (d : Defect) (a : α) : (defect d : Result Error α) ≠ .ok a :=
  report_ne_ok _ _

/-- A number out of its range is no value. -/
@[simp]
theorem outOfRange_ne_ok {α : Type} (q : Quantity) (v : Int) (a : α) :
    (outOfRange q v : Result Error α) ≠ .ok a :=
  report_ne_ok _ _

/-- Rewording causes keeps values. -/
theorem mapCause_eq_ok {ε δ α : Type} {f : ε → δ} {r : Result ε α} {a : α} :
    r.mapCause f = .ok a ↔ r = .ok a := by
  cases r <;> simp [Result.mapCause]

/-- Rewording failures keeps values. -/
theorem mapError_eq_ok {ε δ α : Type} {f : ε → δ} {r : Except ε α} {a : α} :
    r.mapError f = .ok a ↔ r = .ok a := by
  cases r with
  | ok b =>
    change Except.ok b = .ok a ↔ _
    simp only [Except.ok.injEq]
  | error e =>
    change Except.error (f e) = .ok a ↔ _
    simp only [reduceCtorEq]

/-- Rewording failures keeps failures. -/
theorem mapError_eq_error {ε δ α : Type} {f : ε → δ} {r : Except ε α} {e : δ} :
    r.mapError f = .error e ↔ ∃ cause, r = .error cause ∧ f cause = e := by
  cases r with
  | ok a =>
    change Except.ok a = .error e ↔ _
    simp only [reduceCtorEq, false_and, exists_false]
  | error cause =>
    change Except.error (f cause) = .error e ↔ _
    simp only [Except.error.injEq, exists_eq_left']

/-- A checked 64-bit number is the number itself. -/
theorem word64_eq_ok {ε : Type} {n m : Nat} :
    (word64 n : Result ε Nat) = .ok m ↔ n < 2 ^ 64 ∧ n = m := by
  unfold word64
  by_cases h : n < UInt64.size
  · rw [if_pos h]
    exact ⟨fun hv => ⟨h, Except.ok.inj hv⟩, fun hv => congrArg _ hv.2⟩
  · rw [if_neg h]
    exact ⟨fun hv => absurd hv (crash_ne_ok m), fun hv => absurd hv.1 h⟩

/-- A checked signed 64-bit number is the number itself. -/
theorem signedWord64_eq_ok {ε : Type} {v w : Int} :
    (signedWord64 v : Result ε Int) = .ok w ↔ (-(2 ^ 63) ≤ v ∧ v < 2 ^ 63) ∧ v = w := by
  unfold signedWord64
  by_cases h : -(2 ^ 63) ≤ v ∧ v < 2 ^ 63
  · rw [if_pos (by omega)]
    exact ⟨fun hv => ⟨h, by cases hv; rfl⟩, fun hv => by rw [hv.2]⟩
  · rw [if_neg (by omega)]
    exact ⟨fun hv => absurd hv (crash_ne_ok w), fun hv => absurd hv.1 h⟩

/-- A signed 32-bit word is checked and kept as it is. -/
theorem signedWord32_eq_ok {ε : Type} {v : Int} {w : Int32} :
    (signedWord32 v : Result ε Int32) = .ok w ↔ w.toInt = v := by
  have hlo := w.le_toInt
  have hhi := w.toInt_lt
  unfold signedWord32
  by_cases h : -(2 ^ 31) ≤ v ∧ v < 2 ^ 31
  · rw [if_pos (by omega)]
    constructor
    · intro hv
      cases hv
      exact Int32.toInt_ofInt_of_le h.1 h.2
    · rintro rfl
      rw [Int32.ofInt_toInt]
  · rw [if_neg (by omega)]
    exact ⟨fun hv => absurd hv (crash_ne_ok w), fun hv => absurd ⟨hv ▸ hlo, hv ▸ hhi⟩ h⟩

/-- What fits a signed byte. -/
theorem fitsInt8_iff {v : Int} : fitsInt8 v = true ↔ -128 ≤ v ∧ v ≤ 127 := by
  unfold fitsInt8
  exact decide_eq_true_iff

/-- What fits a signed 32-bit field. -/
theorem fitsInt32_iff {v : Int} : fitsInt32 v = true ↔ -(2 ^ 31) ≤ v ∧ v < 2 ^ 31 := by
  unfold fitsInt32
  exact decide_eq_true_iff

/-- A checked address sum that does not exist is a crash. -/
theorem plus_eq_error {ε : Type} {a : Address} {count : Nat} {f : Failure ε}
    (h : (a.plus count : Result ε Address) = .error f) : f = .crash := by
  unfold Address.plus at h
  split at h
  · cases h
  · cases h
    rfl

/-- A checked address sum is the exact sum. -/
theorem plus_eq_ok {ε : Type} {a b : Address} {count : Nat} :
    (a.plus count : Result ε Address) = .ok b ↔ b.toNat = a.toNat + count := by
  unfold Address.plus
  constructor
  · split
    · rintro h
      cases h
      rw [UInt64.toNat_ofNat']
      exact Nat.mod_eq_of_lt (by omega)
    · simp
  · intro h
    have hb : b.toNat < UInt64.size := b.toNat_lt
    rw [if_pos (h ▸ hb), ← h]
    simp

/-- The signed reading of an address. -/
theorem Address.signed_eq (a : Address) :
    a.signed = if a.toNat < 2 ^ 63 then (a.toNat : Int) else a.toNat - 2 ^ 64 := by
  have h : a.signed = a.toBitVec.toInt := rfl
  rw [h, BitVec.toInt_eq_toNat_cond, UInt64.toNat_toBitVec]
  split
  · rw [if_pos (by omega)]
  · rw [if_neg (by omega)]
    rfl

/-- A displacement from an address of an image, taken from behind the instruction, leads to the
target. -/
theorem add_displacement {ε : Type} {base next : Address} {count : Nat} {target : Int}
    (hn : (base.plus count : Result ε Address) = .ok next)
    (hfits : fitsInt32 (target - next.signed) = true) :
    base.toBitVec + BitVec.ofNat 64 count +
      BitVec.ofInt 64 (Int32.ofInt (target - next.signed)).toInt = BitVec.ofInt 64 target := by
  obtain ⟨hlo, hhi⟩ := fitsInt32_iff.mp hfits
  have hnext : base.toBitVec + BitVec.ofNat 64 count = BitVec.ofInt 64 next.signed := by
    apply BitVec.eq_of_toNat_eq
    have hsum := plus_eq_ok.mp hn
    have hlt := next.toNat_lt
    have hsigned : BitVec.ofInt 64 next.signed = next.toBitVec := BitVec.ofInt_toInt
    rw [hsigned, BitVec.toNat_add, BitVec.toNat_ofNat, UInt64.toNat_toBitVec,
      UInt64.toNat_toBitVec]
    omega
  rw [hnext, Int32.toInt_ofInt_of_le (by omega) (by omega), ← BitVec.ofInt_add, Int.add_comm,
    Int.sub_add_cancel]

/-- In the lower half of the address space, a target less than two gigabytes away can be reached. -/
theorem displacement_fits {ε : Type} {base : Address} {count : Nat} {target : Int}
    (hlow : base.toNat + count < 2 ^ 63) (hback : (base.toNat + count : Int) ≤ target + 2 ^ 31)
    (hahead : target < base.toNat + count + 2 ^ 31) :
    ∃ next, (base.plus count : Result ε Address) = .ok next ∧
      (signedWord64 (target - next.signed) : Result ε Int) = .ok (target - next.signed) ∧
      fitsInt32 (target - next.signed) = true := by
  have hsum : (UInt64.ofNat (base.toNat + count)).toNat = base.toNat + count :=
    UInt64.toNat_ofNat_of_lt' (Nat.lt_trans hlow (by decide))
  have hsigned := Address.signed_eq (UInt64.ofNat (base.toNat + count))
  rw [hsum, if_pos hlow] at hsigned
  refine ⟨_, plus_eq_ok.mpr hsum, signedWord64_eq_ok.mpr ⟨?_, rfl⟩, fitsInt32_iff.mpr ?_⟩
  · omega
  · omega

/-- The run treats the members of a list in order, numbered in strides, and stops at the first
failure. -/
structure InOrder {ε α β : Type} (step : Nat → α → Except ε β) (stride : Nat)
    (run : Nat → List α → Except ε (List β)) : Prop where
  /-- An empty list is done. -/
  nil : ∀ n, run n [] = .ok []
  /-- The first member comes first, and then the others. -/
  cons : ∀ n a rest, run n (a :: rest) =
    step n a >>= fun b => run (n + stride) rest >>= fun bs => pure (b :: bs)

namespace InOrder

variable {ε α β : Type} {step : Nat → α → Except ε β} {stride : Nat}
  {run : Nat → List α → Except ε (List β)}

/-- The number of a member, counted from the second one. -/
theorem number_succ (n i stride : Nat) : n + (i + 1) * stride = n + stride + i * stride := by
  rw [Nat.succ_mul]
  omega

/-- A run succeeds if every step does. -/
theorem exists_eq_ok_iff (h : InOrder step stride run) {n : Nat} {members : List α} :
    (∃ bs, run n members = .ok bs) ↔
      ∀ i a, members[i]? = some a → ∃ b, step (n + i * stride) a = .ok b := by
  induction members generalizing n with
  | nil => simp [h.nil]
  | cons first rest ih =>
    rw [h.cons]
    constructor
    · rintro ⟨bs, hbs⟩ i a hi
      obtain ⟨b, hb, hrest⟩ := bind_eq_ok.mp hbs
      obtain ⟨tail, htail, _⟩ := bind_eq_ok.mp hrest
      cases i with
      | zero =>
        cases hi
        exact ⟨b, by rwa [Nat.zero_mul, Nat.add_zero]⟩
      | succ i =>
        rw [number_succ]
        exact ih.mp ⟨tail, htail⟩ i a hi
    · intro hall
      obtain ⟨b, hb⟩ := hall 0 first rfl
      obtain ⟨tail, htail⟩ := ih.mpr fun i a hi => by
        rw [← number_succ]
        exact hall (i + 1) a hi
      rw [Nat.zero_mul, Nat.add_zero] at hb
      exact ⟨b :: tail, bind_eq_ok.mpr ⟨b, hb, bind_eq_ok.mpr ⟨tail, htail, rfl⟩⟩⟩

/-- A run fails as its first failing step does. -/
theorem eq_error_iff (h : InOrder step stride run) {n : Nat} {members : List α} {e : ε} :
    run n members = .error e ↔
      ∃ i a, members[i]? = some a ∧ step (n + i * stride) a = .error e ∧
        ∀ j < i, ∀ earlier, members[j]? = some earlier →
          ∃ b, step (n + j * stride) earlier = .ok b := by
  induction members generalizing n with
  | nil => simp [h.nil]
  | cons first rest ih =>
    rw [h.cons]
    constructor
    · intro he
      rcases bind_eq_error.mp he with hfirst | ⟨b, hb, hrest⟩
      · refine ⟨0, first, rfl, ?_, fun j hj => absurd hj (Nat.not_lt_zero j)⟩
        rwa [Nat.zero_mul, Nat.add_zero]
      · obtain ⟨i, a, hi, hstep, hearlier⟩ := ih.mp (bind_pure_eq_error.mp hrest)
        refine ⟨i + 1, a, hi, by rwa [number_succ], fun j hj earlier hget => ?_⟩
        cases j with
        | zero =>
          cases hget
          exact ⟨b, by rwa [Nat.zero_mul, Nat.add_zero]⟩
        | succ j =>
          rw [number_succ]
          exact hearlier j (by omega) earlier hget
    · rintro ⟨i, a, hi, hstep, hearlier⟩
      cases i with
      | zero =>
        cases hi
        rw [Nat.zero_mul, Nat.add_zero] at hstep
        exact bind_eq_error.mpr (.inl hstep)
      | succ i =>
        obtain ⟨b, hb⟩ := hearlier 0 (Nat.succ_pos i) first rfl
        rw [Nat.zero_mul, Nat.add_zero] at hb
        refine bind_eq_error.mpr (.inr ⟨b, hb, bind_pure_eq_error.mpr (ih.mpr ?_)⟩)
        refine ⟨i, a, hi, by rwa [← number_succ], fun j hj earlier hget => ?_⟩
        rw [← number_succ]
        exact hearlier (j + 1) (by omega) earlier hget

end InOrder

end NativeForge
