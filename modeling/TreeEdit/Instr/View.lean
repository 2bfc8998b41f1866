import TreeEdit.Instr.Decode
import TreeEdit.Json

/-!
# Instructions as structured output

An instruction is shown as an object with its mnemonic and its operands by name, a range as the
object of its bounds and its instructions with their offsets. Members are in the order of their
names.
-/

namespace TreeEdit.Instr

/-- A word as a number. -/
def wordView (w : UInt32) : Json :=
  .number w.toNat

/-- The members that show an instruction. -/
def members (i : Instr) : List (String × Json) :=
  ("op", .text i.opcode.mnemonic) :: i.operands.map fun (name, w) => (name, wordView w)

/-- An instruction as an object. -/
def view (i : Instr) : Json :=
  .sorted i.members

/-- An instruction at an offset as an object. -/
def viewAt (offset : Nat) (i : Instr) : Json :=
  .sorted (("at", .number offset) :: i.members)

/-- The range of `len` bytes at `start` as an object. -/
def viewRange (mem : Binary.Bytes) (start len : UInt32) : Except Fault Json := do
  let instrs ← decodeRange mem start len
  return .object
    [("len", wordView len), ("ops", .list (instrs.map fun (offset, i) => viewAt offset i)),
      ("start", wordView start)]

end TreeEdit.Instr
