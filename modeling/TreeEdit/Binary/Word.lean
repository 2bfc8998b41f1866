/-!
# Words

A word is a 32-bit number, stored as four bytes with the least significant byte first. Everything
in the instruction part of a program is a word, and texts are filled up with zero bytes to whole
words, so that whatever comes after them is aligned too.
-/

namespace TreeEdit.Binary

/-- A string of bytes. -/
abbrev Bytes := List UInt8

namespace Word

/-- The number of bytes in a word. -/
def size : Nat := 4

/-- The bytes of a word, the least significant first. -/
def bytes (w : UInt32) : Bytes :=
  let n := w.toNat
  [n.toUInt8, (n / 0x100).toUInt8, (n / 0x10000).toUInt8, (n / 0x1000000).toUInt8]

/-- The word that four bytes stand for, the least significant first. -/
def ofBytes (a b c d : UInt8) : UInt32 :=
  (a.toNat + 0x100 * b.toNat + 0x10000 * c.toNat + 0x1000000 * d.toNat).toUInt32

@[simp] theorem length_bytes (w : UInt32) : (bytes w).length = size := rfl

/-- Reading the bytes of a word gives the word back. -/
theorem exists_bytes_eq (w : UInt32) :
    ∃ a b c d, bytes w = [a, b, c, d] ∧ ofBytes a b c d = w := by
  refine ⟨_, _, _, _, rfl, ?_⟩
  rw [← UInt32.toNat_inj]
  have := w.toNat_lt
  simp only [ofBytes, UInt8.toNat_ofNat', Nat.toUInt8_eq, Nat.toUInt32_eq, UInt32.toNat_ofNat']
  omega

/-- Four bytes are the bytes of the word they stand for. -/
theorem bytes_ofBytes (a b c d : UInt8) : bytes (ofBytes a b c d) = [a, b, c, d] := by
  have ha := a.toNat_lt
  have hb := b.toNat_lt
  have hc := c.toNat_lt
  have hd := d.toNat_lt
  simp only [bytes, ofBytes, Nat.toUInt32_eq, UInt32.toNat_ofNat', Nat.toUInt8_eq, List.cons.injEq,
    ← UInt8.toNat_inj, UInt8.toNat_ofNat', and_true]
  omega

theorem length_flatMap_bytes (ws : List UInt32) :
    (ws.flatMap bytes).length = ws.length * size := by
  induction ws with
  | nil => rfl
  | cons w ws ih =>
    rw [List.flatMap_cons, List.length_append, ih, length_bytes, List.length_cons, Nat.succ_mul,
      Nat.add_comm]

/-- Words keep a word boundary. -/
theorem length_append_words_mod {bs : Bytes} (h : bs.length % size = 0) (ws : List UInt32) :
    (bs ++ ws.flatMap bytes).length % size = 0 := by
  rw [List.length_append, length_flatMap_bytes]
  simp only [size] at h ⊢
  omega

end Word

/-! ## Filling up -/

/-- The zero bytes that fill `n` bytes up to whole words. -/
def padding (n : Nat) : Bytes :=
  List.replicate ((Word.size - n % Word.size) % Word.size) 0

/-- `bs`, filled up with zero bytes to whole words. -/
def padded (bs : Bytes) : Bytes :=
  bs ++ padding bs.length

/-- Filling up reaches a word boundary. -/
theorem length_padded_mod (bs : Bytes) : (padded bs).length % Word.size = 0 := by
  simp only [padded, padding, List.length_append, List.length_replicate, Word.size]
  omega

/-- Bytes that are filled up keep a word boundary. -/
theorem length_append_padded_mod {bs : Bytes} (h : bs.length % Word.size = 0) (cs : Bytes) :
    (bs ++ padded cs).length % Word.size = 0 := by
  have hc := length_padded_mod cs
  rw [List.length_append]
  simp only [Word.size] at h hc ⊢
  omega

end TreeEdit.Binary
