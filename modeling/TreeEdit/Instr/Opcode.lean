/-!
# Opcodes

The fifteen kinds of instruction, with their numbers, their names and how many words follow each of
them. The numbers run from 0 to 14 without a gap; every other word is no opcode.

Main statements: `ofCode?_code` and `code_of_ofCode?_eq_some` (numbers and opcodes correspond), and
`ofMnemonic?_mnemonic` (names tell opcodes apart).
-/

namespace TreeEdit

/-- The kinds of instruction, in the order of their numbers. -/
inductive Opcode
  /-- Gives the node on top of the stack a new text. -/
  | setText
  /-- Takes a node off the stack and removes it and all siblings after it from the tree. -/
  | removeSelfAndNextSiblings
  /-- Puts the node on top of the stack in the place of the node below it. -/
  | replaceWith
  /-- Sets an attribute of the node on top of the stack. -/
  | setAttribute
  /-- Removes an attribute of the node on top of the stack. -/
  | removeAttribute
  /-- Pushes the first child of the node on top of the stack. -/
  | pushFirstChild
  /-- Takes a node off the stack and pushes its next sibling. -/
  | popPushNextSibling
  /-- Takes a slot off the stack. -/
  | pop
  /-- Takes a node off the stack and adds it as the last child of the node that is then on top. -/
  | appendChild
  /-- Pushes a new text node. -/
  | createText
  /-- Pushes a new element. -/
  | createElement
  /-- Places a listener on the node on top of the stack. -/
  | newListener
  /-- Gives a listener of the node on top of the stack new handles. -/
  | updateListener
  /-- Takes a listener off the node on top of the stack. -/
  | removeListener
  /-- Stores a text under a string id. -/
  | addString
  deriving DecidableEq, Repr, Inhabited

namespace Opcode

/-- All opcodes, in the order of their numbers. -/
def all : List Opcode :=
  [setText, removeSelfAndNextSiblings, replaceWith, setAttribute, removeAttribute, pushFirstChild,
    popPushNextSibling, pop, appendChild, createText, createElement, newListener, updateListener,
    removeListener, addString]

/-- The number of an opcode. -/
def code : Opcode → UInt32
  | setText => 0
  | removeSelfAndNextSiblings => 1
  | replaceWith => 2
  | setAttribute => 3
  | removeAttribute => 4
  | pushFirstChild => 5
  | popPushNextSibling => 6
  | pop => 7
  | appendChild => 8
  | createText => 9
  | createElement => 10
  | newListener => 11
  | updateListener => 12
  | removeListener => 13
  | addString => 14

/-- The opcode with a given number. -/
def ofCode? (w : UInt32) : Option Opcode :=
  all[w.toNat]?

/-- The number of operand words that follow an opcode. -/
def operandCount : Opcode → Nat
  | setText | setAttribute | createText => 2
  | removeAttribute | createElement | removeListener => 1
  | newListener | updateListener | addString => 3
  | removeSelfAndNextSiblings | replaceWith | pushFirstChild | popPushNextSibling | pop
  | appendChild => 0

/-- The name of an opcode in listings, in the source notation and in messages. -/
def mnemonic : Opcode → String
  | setText => "set_text"
  | removeSelfAndNextSiblings => "remove_self_and_next_siblings"
  | replaceWith => "replace_with"
  | setAttribute => "set_attribute"
  | removeAttribute => "remove_attribute"
  | pushFirstChild => "push_first_child"
  | popPushNextSibling => "pop_push_next_sibling"
  | pop => "pop"
  | appendChild => "append_child"
  | createText => "create_text_node"
  | createElement => "create_element"
  | newListener => "new_event_listener"
  | updateListener => "update_event_listener"
  | removeListener => "remove_event_listener"
  | addString => "add_string"

/-- The opcode with a given name. -/
def ofMnemonic? (s : String) : Option Opcode :=
  all.find? fun op => op.mnemonic == s

@[simp] theorem ofCode?_code (op : Opcode) : ofCode? op.code = some op := by
  cases op <;> rfl

theorem code_of_ofCode?_eq_some {w : UInt32} {op : Opcode} (h : ofCode? w = some op) :
    op.code = w := by
  rw [ofCode?, List.getElem?_eq_some_iff] at h
  obtain ⟨hw, rfl⟩ := h
  have key : ∀ (n : Nat) (hn : n < all.length), (all[n]).code.toNat = n := by decide
  exact UInt32.toNat_inj.mp (key _ hw)

@[simp] theorem ofMnemonic?_mnemonic (op : Opcode) : ofMnemonic? op.mnemonic = some op := by
  cases op <;> rfl

end Opcode

end TreeEdit
