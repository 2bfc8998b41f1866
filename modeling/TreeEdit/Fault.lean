import TreeEdit.Text.Numeral

/-!
# Faults of a program's form

A fault says what is wrong with the form of a program, before or while it runs: with a range of
bytes, with an instruction, with the supply of string ids, or with a line of the source notation.
The cause is kept as data; `Fault.message` and `SourceProblem.message` word it.
-/

namespace TreeEdit

open Text.Numeral (decimal)

/-! ## Problems of a source line -/

/-- What is wrong with a line of the source notation. -/
inductive SourceProblem
  /-- A backslash stands before a character that makes no escape. -/
  | unknownEscape (c : Char)
  /-- A text literal is still open at the end of its line. -/
  | unterminatedText
  /-- The line does not start with a word. -/
  | mnemonicExpected
  /-- The first word names no statement. -/
  | unknownMnemonic (word : String)
  /-- The number of operands is not the one the statement takes. -/
  | operandCount (expected found : Nat)
  /-- An operand is not a text literal. -/
  | textExpected (index : Nat)
  /-- An operand is not a numeral; `found` is the word that stands there, if one does. -/
  | numeralExpected (index : Nat) (found : Option String)
  /-- The statement needs a new string id and there is none left. -/
  | idsExhausted
  /-- A problem that another tool stated in its own words. -/
  | stated (words : String)
  deriving DecidableEq, Repr, Inhabited

/-- The wording of running out of string ids, alone or on a line. -/
def idsExhaustedMessage : String :=
  "string id space exhausted"

/-- The wording of a problem. -/
def SourceProblem.message : SourceProblem → String
  | unknownEscape c => "échappement inconnu `\\" ++ String.singleton c ++ "`"
  | unterminatedText => "chaîne non terminée"
  | mnemonicExpected => "mnémonique attendu"
  | unknownMnemonic word => "instruction inconnue `" ++ word ++ "`"
  | operandCount expected found =>
    decimal expected ++ " opérande(s) attendu(s), " ++ decimal found ++ " reçu(s)"
  | textExpected index => "opérande " ++ decimal index ++ ": chaîne attendue"
  | numeralExpected index none => "opérande " ++ decimal index ++ ": entier attendu"
  | numeralExpected index (some word) =>
    "opérande " ++ decimal index ++ ": entier attendu, `" ++ word ++ "`"
  | idsExhausted => idsExhaustedMessage
  | stated words => words

/-! ## Faults -/

/-- What is wrong with the form of a program. -/
inductive Fault
  /-- A range of instructions does not start and end at a word boundary. -/
  | misaligned (start len : UInt32)
  /-- A range of bytes reaches beyond the `size` bytes there are. -/
  | outOfBounds (start len size : Nat)
  /-- The range ends at `offset`, where a word was due. -/
  | truncated (offset : Nat)
  /-- The word at `offset` is no opcode. -/
  | unknownOpcode (word : UInt32) (offset : Nat)
  /-- A text needs a new string id and there is none left. -/
  | idsExhausted
  /-- A line of the source notation is wrong. Lines count from 1. -/
  | source (line : UInt32) (problem : SourceProblem)
  deriving DecidableEq, Repr, Inhabited

/-- The wording of a fault. -/
def Fault.message : Fault → String
  | misaligned start len =>
    "misaligned change range: start=" ++ decimal start.toNat ++ " len=" ++ decimal len.toNat
  | outOfBounds start len size =>
    "out of bounds read: " ++ decimal len ++ " bytes at " ++ decimal start ++
      " (buffer is " ++ decimal size ++ " bytes)"
  | truncated offset => "truncated instruction: missing word at " ++ decimal offset
  | unknownOpcode word offset =>
    "unknown op " ++ decimal word.toNat ++ " at " ++ decimal offset
  | idsExhausted => idsExhaustedMessage
  | source line problem => "asm line " ++ decimal line.toNat ++ ": " ++ problem.message

/-- The same fault as a problem of line `line`. A fault that names its line already stays. -/
def Fault.onLine (line : UInt32) : Fault → Fault
  | source l p => source l p
  | idsExhausted => source line .idsExhausted
  | other => source line (.stated other.message)

end TreeEdit
