import TreeEdit.Binary.Cursor
import TreeEdit.Instr.Basic

/-!
# Reading instructions

`Instr.read` reads one instruction at a cursor: the opcode word, then as many operand words as the
opcode takes. A word that is no opcode is a fault at its own offset, and a range that ends too soon
is a fault at its end. `Instr.decodeRange` reads a range up to its end.

Main statements: `remaining_of_read` (an instruction that is read takes up exactly its encoded
length) and `read_encode` (the encoding of an instruction reads back as that instruction).
-/

namespace TreeEdit.Instr

open Binary

/-! ## One instruction -/

/-- Reads the operands of an instruction. -/
def readOperands : Opcode → Reading Instr
  | .setText => do return .setText (← readWord) (← readWord)
  | .removeSelfAndNextSiblings => return .removeSelfAndNextSiblings
  | .replaceWith => return .replaceWith
  | .setAttribute => do return .setAttribute (← readWord) (← readWord)
  | .removeAttribute => do return .removeAttribute (← readWord)
  | .pushFirstChild => return .pushFirstChild
  | .popPushNextSibling => return .popPushNextSibling
  | .pop => return .pop
  | .appendChild => return .appendChild
  | .createText => do return .createText (← readWord) (← readWord)
  | .createElement => do return .createElement (← readWord)
  | .newListener => do return .newListener (← readWord) (← readWord) (← readWord)
  | .updateListener => do return .updateListener (← readWord) (← readWord) (← readWord)
  | .removeListener => do return .removeListener (← readWord)
  | .addString => do return .addString (← readWord) (← readWord) (← readWord)

/-- Reads the instruction that starts with the opcode word `w`, which stood at `offset`. -/
def readAfter (w : UInt32) (offset : Nat) : Reading Instr :=
  match Opcode.ofCode? w with
  | some op => readOperands op
  | none => throw (.unknownOpcode w offset)

/-- Reads one instruction. -/
def read : Reading Instr := do
  let offset := (← get).offset
  let w ← readWord
  readAfter w offset

/-! ## How far a reading goes -/

/-- A reading that, when it succeeds, takes exactly `n` words. -/
def Takes {α : Type} (n : Nat) (x : Reading α) : Prop :=
  ∀ ⦃c a c'⦄, x c = .ok a c' → c'.remaining + n * Word.size = c.remaining

theorem takes_pure {α : Type} (a : α) : Takes 0 (pure a) := by
  rintro c _ _ ⟨⟩
  simp

theorem takes_readWord : Takes 1 readWord := by
  intro c w c' h
  simpa using remaining_of_readWord h

theorem takes_bind {α β : Type} {m n : Nat} {x : Reading α} {f : α → Reading β}
    (hx : Takes m x) (hf : ∀ a, Takes n (f a)) : Takes (m + n) (x >>= f) := by
  intro c b c' h
  have h' : EStateM.bind x f c = .ok b c' := h
  unfold EStateM.bind at h'
  split at h'
  · rename_i a c₁ h₁
    have e₁ := hx h₁
    have e₂ := hf a h'
    rw [Nat.add_mul]
    omega
  · cases h'

theorem takes_readOperands (op : Opcode) : Takes op.operandCount (readOperands op) := by
  have two {f : UInt32 → UInt32 → Instr} :
      Takes 2 (do return f (← readWord) (← readWord)) :=
    takes_bind takes_readWord fun _ => takes_bind takes_readWord fun _ => takes_pure _
  have three {f : UInt32 → UInt32 → UInt32 → Instr} :
      Takes 3 (do return f (← readWord) (← readWord) (← readWord)) :=
    takes_bind takes_readWord fun _ => takes_bind takes_readWord fun _ =>
      takes_bind takes_readWord fun _ => takes_pure _
  cases op
  case setText | setAttribute | createText => exact two
  case removeAttribute | createElement | removeListener =>
    exact takes_bind takes_readWord fun _ => takes_pure _
  case newListener | updateListener | addString => exact three
  all_goals exact takes_pure _

/-- The operands that are read belong to the opcode. -/
theorem opcode_of_readOperands {op : Opcode} {c c' : Cursor} {i : Instr}
    (h : readOperands op c = .ok i c') : i.opcode = op := by
  cases op <;> simp only [readOperands, bind, pure, EStateM.bind, EStateM.pure] at h <;>
    repeat' split at h
  all_goals first
    | (cases h; done)
    | (obtain ⟨rfl, rfl⟩ := EStateM.Result.ok.inj h; rfl)

/-- An instruction that is read takes up exactly its encoded length. -/
theorem remaining_of_read {c c' : Cursor} {i : Instr} (h : read c = .ok i c') :
    c'.remaining + i.encodedLength = c.remaining := by
  have h' : EStateM.bind readWord (fun w => readAfter w c.offset) c = .ok i c' := h
  unfold EStateM.bind at h'
  split at h'
  · rename_i w c₁ h₁
    have e₁ := remaining_of_readWord h₁
    cases hop : Opcode.ofCode? w with
    | none =>
      simp only [readAfter, hop] at h'
      cases h'
    | some op =>
      simp only [readAfter, hop] at h'
      have e₂ := takes_readOperands op h'
      rw [encodedLength, opcode_of_readOperands h', Nat.add_mul]
      omega
  · cases h'

/-- The encoding of an instruction reads back as that instruction, and nothing after it is
touched. -/
theorem read_encode (i : Instr) (offset : Nat) (rest : Bytes) :
    read ⟨offset, i.encode ++ rest⟩ = .ok i ⟨offset + i.encodedLength, rest⟩ := by
  have unfold_read (c : Cursor) :
      read c = EStateM.bind readWord (fun w => readAfter w c.offset) c := rfl
  have split : i.encode ++ rest
      = Word.bytes i.opcode.code ++ ((i.operands.map Prod.snd).flatMap Word.bytes ++ rest) := by
    simp [encode, words]
  rw [unfold_read, split]
  simp only [EStateM.bind, readWord_bytes, readAfter, Opcode.ofCode?_code]
  cases i <;>
    simp [opcode, operands, readOperands, bind, pure, EStateM.bind, EStateM.pure, readWord_bytes,
      encodedLength, Opcode.operandCount, Nat.add_assoc, Word.size]

theorem encodedLength_pos (i : Instr) : 0 < i.encodedLength := by
  rw [encodedLength, Word.size]
  omega

/-! ## Ranges -/

/-- Reads instructions up to the end of the range, each with its offset. -/
def readAll (c : Cursor) : Except Fault (List (Nat × Instr)) :=
  if c.atEnd then .ok []
  else
    match _h : read c with
    | .ok i c' => (readAll c').map ((c.offset, i) :: ·)
    | .error e _ => .error e
termination_by c.remaining
decreasing_by
  have := remaining_of_read _h
  have := encodedLength_pos i
  omega

/-- The instructions in the range of `len` bytes at `start`, each with its offset. -/
def decodeRange (mem : Bytes) (start len : UInt32) : Except Fault (List (Nat × Instr)) := do
  readAll (← Cursor.ofRange mem start len)

end TreeEdit.Instr
