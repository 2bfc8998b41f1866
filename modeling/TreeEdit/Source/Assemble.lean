import TreeEdit.Source.Line
import TreeEdit.Text.Lines

/-!
# Assembling a source text

A source text has one statement a line. Blank lines and lines that start with a semicolon say
nothing. The first line that is wrong ends the assembly; what the lines before it emitted stays
emitted, and so does what the line itself emitted before it failed. Every fault names its line.
-/

namespace TreeEdit.Source

open Text (trim lines)

/-- Whether a line without blanks at its ends says nothing. -/
def saysNothing (line : List Char) : Bool :=
  line.isEmpty || line.head? == some ';'

/-- Assembles the line with number `number`. -/
def assembleLine (number : UInt32) (line : List Char) : Emission Unit :=
  let line := trim line
  if saysNothing line then pure ()
  else
    match readLine line with
    | .error p => throw (.source number p)
    | .ok s => s.emit.adaptExcept (Fault.onLine number)

/-- Assembles lines, the first of which has the number after `before`. -/
def assembleLines (before : Nat) : List (List Char) → Emission Unit
  | [] => pure ()
  | l :: ls => do
    assembleLine (before + 1).toUInt32 l
    assembleLines (before + 1) ls

/-- Assembles a source text after what has been emitted so far. -/
def assembleInto (source : String) : Emission Unit :=
  assembleLines 0 (lines source.toList)

/-- Assembles a whole program. -/
def assemble (source : String) : Except Fault Image :=
  match assembleInto source .empty with
  | .ok () b => .ok b.finish
  | .error e _ => .error e

end TreeEdit.Source
