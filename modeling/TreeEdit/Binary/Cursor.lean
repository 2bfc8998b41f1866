import TreeEdit.Binary.Memory

/-!
# Reading words in order

A `Cursor` stands at an offset of a range and holds the bytes of the range that are still unread.
Reading a word moves it on by one word; at the end of the range the reading fails and the cursor
stays where it is. A `Reading` keeps the cursor on failure, so that one can see how far it came.

Main statement: `readWord_cases`, the two outcomes of reading a word.
-/

namespace TreeEdit.Binary

/-- A place in a range of words. -/
structure Cursor where
  /-- The offset of the next unread byte in the memory. -/
  offset : Nat
  /-- The bytes of the range that are still unread. -/
  rest : Bytes
  deriving DecidableEq, Repr

/-- A computation that reads at a cursor. When it fails, the cursor stays where it came to. -/
abbrev Reading := EStateM Fault Cursor

namespace Cursor

/-- The cursor at the start of all the whole words of a memory. Bytes after the last whole word are
out of its reach. -/
def whole (mem : Bytes) : Cursor :=
  ⟨0, mem.take (mem.length - mem.length % Word.size)⟩

/-- The cursor at the start of the range of `len` bytes at `start`. -/
def ofRange (mem : Bytes) (start len : UInt32) : Except Fault Cursor :=
  (checkRange mem.length start len).map fun (first, last) =>
    ⟨first, (mem.drop first).take (last - first)⟩

/-- The number of bytes still unread. -/
def remaining (c : Cursor) : Nat :=
  c.rest.length

/-- Whether the range is used up. -/
def atEnd (c : Cursor) : Bool :=
  c.rest.isEmpty

/-- The offset after the last byte of the range. -/
def limit (c : Cursor) : Nat :=
  c.offset + c.rest.length

end Cursor

/-- The next word of the range. -/
def readWord : Reading UInt32 := fun c =>
  match c.rest with
  | b₀ :: b₁ :: b₂ :: b₃ :: rest => .ok (Word.ofBytes b₀ b₁ b₂ b₃) ⟨c.offset + Word.size, rest⟩
  | _ => .error (.truncated c.offset) c

/-- A word is read off the front of the range, or fewer than four bytes are left and the cursor
stays. -/
theorem readWord_cases (c : Cursor) :
    (∃ w rest, c.rest = Word.bytes w ++ rest ∧ readWord c = .ok w ⟨c.offset + Word.size, rest⟩) ∨
      (c.rest.length < Word.size ∧ readWord c = .error (.truncated c.offset) c) := by
  obtain ⟨offset, rest⟩ := c
  match rest with
  | b₀ :: b₁ :: b₂ :: b₃ :: rest =>
    exact .inl ⟨Word.ofBytes b₀ b₁ b₂ b₃, rest, by simp [Word.bytes_ofBytes], rfl⟩
  | [] | [_] | [_, _] | [_, _, _] =>
    exact .inr ⟨by simp [Word.size], rfl⟩

/-- Reading a word off its own bytes. -/
theorem readWord_bytes (w : UInt32) (offset : Nat) (rest : Bytes) :
    readWord ⟨offset, Word.bytes w ++ rest⟩ = .ok w ⟨offset + Word.size, rest⟩ := by
  obtain ⟨a, b, c, d, hb, hw⟩ := Word.exists_bytes_eq w
  rw [hb]
  exact congrArg (fun x => EStateM.Result.ok x _) hw

/-- A word that is read is taken off the unread bytes. -/
theorem remaining_of_readWord {c c' : Cursor} {w : UInt32} (h : readWord c = .ok w c') :
    c'.remaining + Word.size = c.remaining := by
  rcases readWord_cases c with ⟨w', rest, hr, hok⟩ | ⟨_, herr⟩
  · rw [hok] at h
    cases h
    simp [Cursor.remaining, hr, Nat.add_comm]
  · rw [herr] at h
    cases h

end TreeEdit.Binary
