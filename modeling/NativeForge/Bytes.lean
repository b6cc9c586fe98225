/-!
# Little-endian byte fields

One encoder serves every fixed-width field: a natural number becomes exactly `width` bytes,
least significant first, and bits above the field are dropped. `value` reads such a field back.
-/

namespace NativeForge.Bytes

/-- The `width` little-endian bytes of `n`. -/
def littleEndian : Nat → Nat → List UInt8
  | 0, _ => []
  | width + 1, n => UInt8.ofNat n :: littleEndian width (n / 256)

/-- The number that a little-endian field holds. -/
def value : List UInt8 → Nat
  | [] => 0
  | b :: rest => b.toNat + 256 * value rest

/-- A 16-bit field. -/
def ofUInt16 (v : UInt16) : List UInt8 := littleEndian 2 v.toNat

/-- A 32-bit field. -/
def ofUInt32 (v : UInt32) : List UInt8 := littleEndian 4 v.toNat

/-- A 64-bit field. -/
def ofUInt64 (v : UInt64) : List UInt8 := littleEndian 8 v.toNat

/-- A signed 32-bit field, in two's complement. -/
def ofInt32 (v : Int32) : List UInt8 := ofUInt32 v.toUInt32

/-- A field has exactly its width in bytes. -/
@[simp]
theorem length_littleEndian (width n : Nat) : (littleEndian width n).length = width := by
  induction width generalizing n with
  | zero => rfl
  | succ width ih => simp [littleEndian, ih]

/-- Reading a field back gives the number modulo the field's range. -/
theorem value_littleEndian (width n : Nat) :
    value (littleEndian width n) = n % (1 <<< (8 * width)) := by
  induction width generalizing n with
  | zero => simp [littleEndian, value, Nat.mod_one]
  | succ width ih =>
    have hrange : 1 <<< (8 * (width + 1)) = 256 * (1 <<< (8 * width)) := by
      rw [Nat.mul_succ, Nat.shiftLeft_add, Nat.shiftLeft_eq _ 8, Nat.mul_comm]
    simp only [littleEndian, value, ih, UInt8.toNat_ofNat']
    rw [hrange, Nat.mod_mul]

/-- Writing the number that a field holds gives the field back. -/
theorem littleEndian_value (bytes : List UInt8) :
    littleEndian bytes.length (value bytes) = bytes := by
  induction bytes with
  | nil => rfl
  | cons b rest ih =>
    have hb := b.toNat_lt
    have hfirst : UInt8.ofNat (value (b :: rest)) = b := by
      apply UInt8.toNat_inj.mp
      rw [UInt8.toNat_ofNat', value]
      omega
    have hrest : value (b :: rest) / 256 = value rest := by
      rw [value]
      omega
    rw [List.length_cons, littleEndian, hfirst, hrest, ih]

end NativeForge.Bytes
