import TreeEdit.Binary.Word
import TreeEdit.Fault
import TreeEdit.Text.Utf8

/-!
# Ranges of memory

A program is read out of a string of bytes, its memory. Texts are taken from any range that lies
inside; a range of instructions must also start and end at a word boundary. Where both are wrong,
the alignment is what is reported. Offsets are natural numbers, so a range that ends beyond what a
word can count is out of bounds like any other.
-/

namespace TreeEdit.Binary

/-! ## Bytes and texts -/

/-- The `len` bytes at `start`. -/
def slice (mem : Bytes) (start len : UInt32) : Except Fault Bytes :=
  if start.toNat + len.toNat ≤ mem.length then
    .ok ((mem.drop start.toNat).take len.toNat)
  else
    .error (.outOfBounds start.toNat len.toNat mem.length)

/-- The text stored in the `len` bytes at `start`, read leniently. -/
def text (mem : Bytes) (start len : UInt32) : Except Fault String :=
  (slice mem start len).map Text.Utf8.decodeLossy

/-! ## Ranges of instructions -/

/-- The first offset of a range of instructions and the offset after it, for a memory of `size`
bytes. -/
def checkRange (size : Nat) (start len : UInt32) : Except Fault (Nat × Nat) :=
  if start.toNat % Word.size ≠ 0 ∨ len.toNat % Word.size ≠ 0 then
    .error (.misaligned start len)
  else if start.toNat + len.toNat ≤ size then
    .ok (start.toNat, start.toNat + len.toNat)
  else
    .error (.outOfBounds start.toNat len.toNat size)

theorem checkRange_eq_ok_iff {size : Nat} {start len : UInt32} {r : Nat × Nat} :
    checkRange size start len = .ok r ↔
      start.toNat % Word.size = 0 ∧ len.toNat % Word.size = 0 ∧
        start.toNat + len.toNat ≤ size ∧ r = (start.toNat, start.toNat + len.toNat) := by
  unfold checkRange
  split
  · simp only [reduceCtorEq, false_iff]
    omega
  · split
    · simp only [Except.ok.injEq]
      constructor
      · rintro rfl
        exact ⟨by omega, by omega, by omega, rfl⟩
      · rintro ⟨_, _, _, rfl⟩
        rfl
    · simp only [reduceCtorEq, false_iff]
      omega

end TreeEdit.Binary
