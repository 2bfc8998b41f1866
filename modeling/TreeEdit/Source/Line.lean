import TreeEdit.Program.Statement
import TreeEdit.Source.Token
import TreeEdit.Text.Numeral

/-!
# Source lines as statements

A line starts with the name of a statement; its operands follow, texts as literals and numbers as
numerals. The number of operands is checked before any of them is looked at, and then they are
looked at from left to right. The one exception is `raw`, which looks at its operand first.
-/

namespace TreeEdit.Source

/-! ## Operands -/

/-- Refuses any number of operands but `n`. -/
def expectCount (args : List Token) (n : Nat) : Except SourceProblem Unit :=
  if args.length = n then .ok () else .error (.operandCount n args.length)

/-- The operand at `index`, which must be a text. -/
def textAt (args : List Token) (index : Nat) : Except SourceProblem String :=
  match args[index]? with
  | some (.text s) => .ok s
  | _ => .error (.textExpected index)

/-- The operand at `index`, which must be a numeral that fits a word. -/
def numberAt (args : List Token) (index : Nat) : Except SourceProblem UInt32 :=
  match args[index]? with
  | some (.word w) =>
    match Text.Numeral.word? w with
    | some n => .ok n
    | none => .error (.numeralExpected index (some w))
  | _ => .error (.numeralExpected index none)

/-! ## Statements -/

/-- The name of the statement that emits a raw word. -/
def rawName : String := "raw"

/-- The number of operands that a statement has on its line. Texts count once, whatever they become
in the instruction. -/
def operandCount : Opcode → Nat
  | .setText | .createText | .removeAttribute | .createElement | .removeListener => 1
  | .setAttribute | .addString => 2
  | .newListener | .updateListener => 3
  | .removeSelfAndNextSiblings | .replaceWith | .pushFirstChild | .popPushNextSibling | .pop
  | .appendChild => 0

/-- The statement of kind `op` with the given operands, whose number is right. -/
def statementOf (op : Opcode) (args : List Token) : Except SourceProblem Statement := do
  match op with
  | .setText => return .setText (← textAt args 0)
  | .removeSelfAndNextSiblings => return .removeSelfAndNextSiblings
  | .replaceWith => return .replaceWith
  | .setAttribute => return .setAttribute (← textAt args 0) (← textAt args 1)
  | .removeAttribute => return .removeAttribute (← textAt args 0)
  | .pushFirstChild => return .pushFirstChild
  | .popPushNextSibling => return .popPushNextSibling
  | .pop => return .pop
  | .appendChild => return .appendChild
  | .createText => return .createText (← textAt args 0)
  | .createElement => return .createElement (← textAt args 0)
  | .newListener => return .newListener (← textAt args 0) (← numberAt args 1) (← numberAt args 2)
  | .updateListener =>
    return .updateListener (← textAt args 0) (← numberAt args 1) (← numberAt args 2)
  | .removeListener => return .removeListener (← textAt args 0)
  | .addString => return .addString (← textAt args 0) (← numberAt args 1)

/-- The statement with the given name and operands. -/
def statement (name : String) (args : List Token) : Except SourceProblem Statement := do
  if name = rawName then
    let w ← numberAt args 0
    expectCount args 1
    return .raw w
  else
    match Opcode.ofMnemonic? name with
    | none => throw (.unknownMnemonic name)
    | some op =>
      expectCount args (operandCount op)
      statementOf op args

/-- The statement on a line that is neither empty nor a comment. -/
def readLine (line : List Char) : Except SourceProblem Statement := do
  match ← tokens line with
  | .word name :: args => statement name args
  | _ => throw .mnemonicExpected

end TreeEdit.Source
