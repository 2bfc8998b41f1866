import TreeEdit.Source.Line

/-!
# Writing statements down

`printStatement` writes a statement as a line of the source notation: its name, then its operands,
each after one space, texts between quotes and numbers in decimal. Inside quotes only the backslash,
the quote, the line feed and the tab are escaped, which is what the notation can read back.
-/

namespace TreeEdit.Source

/-- How one character is written in a text literal. -/
def escapeChar : Char → List Char
  | '\n' => ['\\', 'n']
  | '\t' => ['\\', 't']
  | '"' => ['\\', '"']
  | '\\' => ['\\', '\\']
  | c => [c]

/-- A text as a literal. -/
def literal (text : String) : List Char :=
  '"' :: text.toList.flatMap escapeChar ++ ['"']

/-- A number as a numeral. -/
def numeral (w : UInt32) : List Char :=
  (Text.Numeral.decimal w.toNat).toList

/-- A name and operands on a line. -/
def printLine (name : String) (operands : List (List Char)) : List Char :=
  name.toList ++ operands.flatMap (' ' :: ·)

/-- A statement as a line of the source notation. -/
def printStatement : Statement → List Char
  | .setText text => printLine Opcode.setText.mnemonic [literal text]
  | .removeSelfAndNextSiblings => printLine Opcode.removeSelfAndNextSiblings.mnemonic []
  | .replaceWith => printLine Opcode.replaceWith.mnemonic []
  | .setAttribute name value =>
    printLine Opcode.setAttribute.mnemonic [literal name, literal value]
  | .removeAttribute name => printLine Opcode.removeAttribute.mnemonic [literal name]
  | .pushFirstChild => printLine Opcode.pushFirstChild.mnemonic []
  | .popPushNextSibling => printLine Opcode.popPushNextSibling.mnemonic []
  | .pop => printLine Opcode.pop.mnemonic []
  | .appendChild => printLine Opcode.appendChild.mnemonic []
  | .createText text => printLine Opcode.createText.mnemonic [literal text]
  | .createElement tag => printLine Opcode.createElement.mnemonic [literal tag]
  | .newListener event a b =>
    printLine Opcode.newListener.mnemonic [literal event, numeral a, numeral b]
  | .updateListener event a b =>
    printLine Opcode.updateListener.mnemonic [literal event, numeral a, numeral b]
  | .removeListener event => printLine Opcode.removeListener.mnemonic [literal event]
  | .addString text id => printLine Opcode.addString.mnemonic [literal text, numeral id]
  | .raw word => printLine rawName [numeral word]

/-- A program as a source text, one statement a line. -/
def printProgram (program : List Statement) : String :=
  String.ofList (program.flatMap fun s => printStatement s ++ ['\n'])

end TreeEdit.Source
