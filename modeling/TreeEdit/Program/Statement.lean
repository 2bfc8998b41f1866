import TreeEdit.Program.Builder

/-!
# Statements

A `Statement` is an instruction as its author thinks of it, with texts where the instruction has
places and string ids. `Statement.emit` turns it into instructions: texts that need an id get one
first, in the order in which the statement names them. A raw word stands for itself and need not be
part of any instruction.
-/

namespace TreeEdit

/-- One step of a program, in terms of texts. -/
inductive Statement
  | setText (text : String)
  | removeSelfAndNextSiblings
  | replaceWith
  | setAttribute (name value : String)
  | removeAttribute (name : String)
  | pushFirstChild
  | popPushNextSibling
  | pop
  | appendChild
  | createText (text : String)
  | createElement (tag : String)
  | newListener (event : String) (a b : UInt32)
  | updateListener (event : String) (a b : UInt32)
  | removeListener (event : String)
  | addString (text : String) (id : UInt32)
  | raw (word : UInt32)
  deriving DecidableEq, Repr, Inhabited

namespace Statement

open Builder

/-- Emits the instructions of a statement. -/
def emit : Statement → Emission Unit
  | setText text => do
    let (ptr, len) ← intern text
    emitInstr (.setText ptr len)
  | removeSelfAndNextSiblings => emitInstr .removeSelfAndNextSiblings
  | replaceWith => emitInstr .replaceWith
  | setAttribute name value => do
    let name ← stringId name
    let value ← stringId value
    emitInstr (.setAttribute name value)
  | removeAttribute name => do
    let name ← stringId name
    emitInstr (.removeAttribute name)
  | pushFirstChild => emitInstr .pushFirstChild
  | popPushNextSibling => emitInstr .popPushNextSibling
  | pop => emitInstr .pop
  | appendChild => emitInstr .appendChild
  | createText text => do
    let (ptr, len) ← intern text
    emitInstr (.createText ptr len)
  | createElement tag => do
    let tag ← stringId tag
    emitInstr (.createElement tag)
  | newListener event a b => do
    let event ← stringId event
    emitInstr (.newListener event a b)
  | updateListener event a b => do
    let event ← stringId event
    emitInstr (.updateListener event a b)
  | removeListener event => do
    let event ← stringId event
    emitInstr (.removeListener event)
  | addString text id => Builder.addString text id
  | raw word => emitWords [word]

end Statement

end TreeEdit
