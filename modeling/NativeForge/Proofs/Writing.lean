import NativeForge.Compile
import NativeForge.Proofs.Outcome

/-!
# Writes into images

A write changes the bytes of its range and nothing else: address, size and protection of the
image stay, and every byte outside the range keeps its value. The code of a compilation therefore
stands at the start of the image that it was written to, whatever is written behind it.
-/

namespace NativeForge

open X64 TailCall

/-- Overwriting keeps the number of bytes. -/
@[simp]
theorem size_overwrite (bytes : Array UInt8) (start : Nat) (data : List UInt8) :
    (CodeBuffer.overwrite bytes start data).size = bytes.size := by
  induction data generalizing bytes start with
  | nil => rfl
  | cons b rest ih => rw [CodeBuffer.overwrite, ih, Array.size_setIfInBounds]

/-- Overwriting puts the data into its range and leaves every other byte alone. -/
theorem getElem?_overwrite (bytes : Array UInt8) (start : Nat) (data : List UInt8)
    (h : start + data.length ≤ bytes.size) (i : Nat) :
    (CodeBuffer.overwrite bytes start data)[i]? =
      if start ≤ i ∧ i < start + data.length then data[i - start]? else bytes[i]? := by
  induction data generalizing bytes start with
  | nil =>
    rw [CodeBuffer.overwrite, if_neg (by simp only [List.length_nil]; omega)]
  | cons b rest ih =>
    simp only [List.length_cons] at h ⊢
    rw [CodeBuffer.overwrite, ih _ _ (by rw [Array.size_setIfInBounds]; omega),
      Array.getElem?_setIfInBounds]
    by_cases hi : start = i
    · subst hi
      rw [if_neg (by omega), if_pos rfl, if_pos (by omega), if_pos (by omega), Nat.sub_self,
        List.getElem?_cons_zero]
    · rw [if_neg hi]
      by_cases hr : start + 1 ≤ i ∧ i < start + 1 + rest.length
      · rw [if_pos hr, if_pos (by omega), show i - start = (i - (start + 1)) + 1 by omega,
          List.getElem?_cons_succ]
      · rw [if_neg hr, if_neg (by omega)]

namespace Image

/-- An image that was made executable is the same image, executable. -/
theorem makeExecutable_eq_ok {image image' : Image} (h : image.makeExecutable = .ok image') :
    image' = { image with executable := true } := by
  unfold makeExecutable at h
  split at h
  · rename_i hexec
    cases h
    rw [← hexec]
  · split at h
    · cases h
      rfl
    · exact absurd h (report_ne_ok _ _)

/-- An image that could not be made executable was refused by the system. -/
theorem makeExecutable_eq_error {image : Image} {f : Failure MemoryError}
    (h : image.makeExecutable = .error f) : f = .reported .protectionFailed := by
  unfold makeExecutable at h
  split at h
  · cases h
  · split at h
    · cases h
    · cases h
      rfl

/-- Two images are the same block: same address, same size, same protection, and the system treats
them in the same way. -/
structure SameBlock (a b : Image) : Prop where
  /-- Same address. -/
  base_eq : a.base = b.base
  /-- Same size. -/
  size_eq : a.size = b.size
  /-- Same protection. -/
  executable_eq : a.executable = b.executable
  /-- Same answer of the system. -/
  lockable_eq : a.lockable = b.lockable

/-- An image is the same block as itself. -/
theorem SameBlock.refl (a : Image) : SameBlock a a := ⟨rfl, rfl, rfl, rfl⟩

/-- Being the same block is transitive. -/
theorem SameBlock.trans {a b c : Image} (h : SameBlock a b) (g : SameBlock b c) :
    SameBlock a c :=
  ⟨h.base_eq.trans g.base_eq, h.size_eq.trans g.size_eq, h.executable_eq.trans g.executable_eq,
    h.lockable_eq.trans g.lockable_eq⟩

/-- Putting bytes into an image gives the same block. -/
theorem sameBlock_poke (image : Image) (offset : Nat) (data : List UInt8) :
    SameBlock (image.poke offset data) image :=
  ⟨rfl, size_overwrite _ _ _, rfl, rfl⟩

/-- The bytes of an image after bytes were put into it. -/
theorem getElem?_poke (image : Image) (offset : Nat) (data : List UInt8)
    (h : offset + data.length ≤ image.size) (i : Nat) :
    (image.poke offset data).bytes[i]? =
      if offset ≤ i ∧ i < offset + data.length then data[i - offset]? else image.bytes[i]? :=
  getElem?_overwrite _ _ _ h i

/-- A successful write puts its bytes into a writable image that has room for them. -/
theorem write_eq_ok {image written : Image} {offset : Nat} {data : List UInt8}
    (h : image.write offset data = .ok written) :
    image.executable = false ∧ offset + data.length ≤ image.size ∧
      written = image.poke offset data := by
  unfold write at h
  split at h
  · exact absurd h (report_ne_ok _ _)
  · rename_i he
    obtain ⟨stop, hs, h⟩ := bind_eq_ok.mp h
    obtain ⟨_, rfl⟩ := word64_eq_ok.mp hs
    split at h
    · exact absurd h (report_ne_ok _ _)
    · exact ⟨by simpa using he, by omega, (pure_eq_ok.mp h).symm⟩

/-- A successful read lies in the block and gives its bytes. -/
theorem read_eq_ok {ε : Type} {image : Image} {offset count : Nat} {data : List UInt8}
    (h : (image.read offset count : Result ε (List UInt8)) = .ok data) :
    offset + count ≤ image.size ∧ data = (image.bytes.extract offset (offset + count)).toList := by
  unfold read at h
  split at h
  · rename_i hb
    cases h
    exact ⟨hb, rfl⟩
  · exact absurd h (crash_ne_ok _)

end Image

/-- A rounded number is not below the number. -/
theorem le_roundUp (n step : Nat) (h : 0 < step) : n ≤ roundUp n step := by
  have hm := Nat.mod_add_div (n + (step - 1)) step
  have hl := Nat.mod_lt (n + (step - 1)) h
  unfold roundUp
  rw [Nat.mul_comm]
  omega

/-- Writing exception entries from an offset on leaves the bytes before it alone. -/
theorem writeEntries_eq_ok {image written : Image} {offset : Nat} {entries : List ExceptionEntry}
    (h : writeImage.writeEntries image offset entries = .ok written) :
    Image.SameBlock written image ∧ ∀ i < offset, written.bytes[i]? = image.bytes[i]? := by
  induction entries generalizing image offset with
  | nil =>
    cases h
    exact ⟨.refl _, fun _ _ => rfl⟩
  | cons entry rest ih =>
    obtain ⟨next, hn, h⟩ := bind_eq_ok.mp h
    obtain ⟨_, hsize, rfl⟩ := Image.write_eq_ok (mapCause_eq_ok.mp hn)
    obtain ⟨hb, hi⟩ := ih h
    refine ⟨hb.trans (Image.sameBlock_poke _ _ _), fun i hlt => ?_⟩
    rw [hi i (by omega), Image.getElem?_poke _ _ _ hsize, if_neg (by omega)]

/-- The code of a pass stands at the start of the image it was written to. -/
theorem writeImage_eq_ok {image written : Image} {out : PassOutput} {probes : Nat}
    {exceptions : ExceptionTable} (h : writeImage image out probes = .ok (written, exceptions)) :
    Image.SameBlock written image ∧ image.executable = false ∧ out.code.size ≤ image.size ∧
      ∀ i < out.code.size, written.bytes[i]? = out.code[i]? := by
  unfold writeImage at h
  split at h
  · exact absurd h (defect_ne_ok _ _)
  · obtain ⟨next, hn, h⟩ := bind_eq_ok.mp h
    obtain ⟨entries, _, h⟩ := bind_eq_ok.mp h
    obtain ⟨last, hl, h⟩ := bind_eq_ok.mp h
    obtain ⟨addr, _, h⟩ := bind_eq_ok.mp h
    obtain ⟨rfl, rfl⟩ := Prod.mk.inj (pure_eq_ok.mp h)
    obtain ⟨he, hsize, rfl⟩ := Image.write_eq_ok (mapCause_eq_ok.mp hn)
    obtain ⟨hb, hi⟩ := writeEntries_eq_ok hl
    simp only [Array.length_toList, Nat.zero_add] at hsize
    refine ⟨hb.trans (Image.sameBlock_poke _ _ _), he, hsize, fun i hlt => ?_⟩
    have hround := le_roundUp out.code.size 4 (by decide)
    rw [hi i (by omega), Image.getElem?_poke _ _ _ (by simpa using hsize),
      if_pos (by simpa using hlt)]
    simp

end NativeForge
