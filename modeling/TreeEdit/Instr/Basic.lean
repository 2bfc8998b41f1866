import TreeEdit.Binary.Word
import TreeEdit.Instr.Opcode
import TreeEdit.Text.Numeral

/-!
# Instructions

An instruction is an opcode together with its operand words. A pair `ptr len` points at a text in
the memory that holds the instruction; the other operands are string ids, or the two handles of a
listener, which mean something only to whoever receives its events.
-/

namespace TreeEdit

open Text.Numeral (decimal)

/-- An instruction with its operands. -/
inductive Instr
  | setText (ptr len : UInt32)
  | removeSelfAndNextSiblings
  | replaceWith
  | setAttribute (name value : UInt32)
  | removeAttribute (name : UInt32)
  | pushFirstChild
  | popPushNextSibling
  | pop
  | appendChild
  | createText (ptr len : UInt32)
  | createElement (tag : UInt32)
  | newListener (event a b : UInt32)
  | updateListener (event a b : UInt32)
  | removeListener (event : UInt32)
  | addString (ptr len id : UInt32)
  deriving DecidableEq, Repr, Inhabited

namespace Instr

/-- The opcode of an instruction. -/
def opcode : Instr → Opcode
  | setText .. => .setText
  | removeSelfAndNextSiblings => .removeSelfAndNextSiblings
  | replaceWith => .replaceWith
  | setAttribute .. => .setAttribute
  | removeAttribute .. => .removeAttribute
  | pushFirstChild => .pushFirstChild
  | popPushNextSibling => .popPushNextSibling
  | pop => .pop
  | appendChild => .appendChild
  | createText .. => .createText
  | createElement .. => .createElement
  | newListener .. => .newListener
  | updateListener .. => .updateListener
  | removeListener .. => .removeListener
  | addString .. => .addString

/-- The operand words of an instruction, each with what it is called. -/
def operands : Instr → List (String × UInt32)
  | setText ptr len | createText ptr len => [("ptr", ptr), ("len", len)]
  | setAttribute name value => [("name", name), ("value", value)]
  | removeAttribute name => [("name", name)]
  | createElement tag => [("tag", tag)]
  | newListener event a b | updateListener event a b => [("event", event), ("a", a), ("b", b)]
  | removeListener event => [("event", event)]
  | addString ptr len id => [("ptr", ptr), ("len", len), ("id", id)]
  | removeSelfAndNextSiblings | replaceWith | pushFirstChild | popPushNextSibling | pop
  | appendChild => []

theorem length_operands (i : Instr) : i.operands.length = i.opcode.operandCount := by
  cases i <;> rfl

/-! ## Bytes -/

/-- The words of an instruction: its opcode, then its operands. -/
def words (i : Instr) : List UInt32 :=
  i.opcode.code :: i.operands.map Prod.snd

/-- The bytes of an instruction. -/
def encode (i : Instr) : Binary.Bytes :=
  i.words.flatMap Binary.Word.bytes

/-- The number of bytes of an instruction. -/
def encodedLength (i : Instr) : Nat :=
  (1 + i.opcode.operandCount) * Binary.Word.size

theorem length_encode (i : Instr) : i.encode.length = i.encodedLength := by
  rw [encode, Binary.Word.length_flatMap_bytes, words, List.length_cons, List.length_map,
    length_operands, encodedLength, Nat.add_comm]

/-! ## Text -/

/-- An instruction as listings and the journal show it: `@` and `+` stand before the place and the
length of a text, `#` before a string id. -/
def render (i : Instr) : String :=
  let name := i.opcode.mnemonic
  let word (w : UInt32) := decimal w.toNat
  match i with
  | setText ptr len | createText ptr len => name ++ " @" ++ word ptr ++ "+" ++ word len
  | setAttribute n value => name ++ " #" ++ word n ++ " #" ++ word value
  | removeAttribute id | createElement id | removeListener id => name ++ " #" ++ word id
  | newListener event a b | updateListener event a b =>
    name ++ " #" ++ word event ++ " a=" ++ word a ++ " b=" ++ word b
  | addString ptr len id => name ++ " @" ++ word ptr ++ "+" ++ word len ++ " #" ++ word id
  | removeSelfAndNextSiblings | replaceWith | pushFirstChild | popPushNextSibling | pop
  | appendChild => name

end Instr

end TreeEdit
