import TreeEdit.Failure
import TreeEdit.Journal
import TreeEdit.Text.Blank

/-!
# Outcomes of commands

A command ends with a code, the text for its standard output, a remark for its reader, and the
notices of its journal that the reader wants to see. The code is 0 for a success, 1 for a failure
and 2 for arguments that are not those of the command.
-/

namespace TreeEdit

/-- Whether a notice is shown to a reader who asked `verbosity` times for more. -/
def Urgency.shownAt (verbosity : Nat) : Urgency → Bool
  | trace => 3 ≤ verbosity
  | debug => 2 ≤ verbosity
  | warning => true
  | error => true

namespace Command

/-- How a command ends. -/
structure Outcome where
  code : UInt32
  /-- The text for the standard output. -/
  output : String
  /-- The remark for the reader. -/
  remark : String
  /-- The notices for the reader, the earliest first. -/
  journal : Journal
  deriving DecidableEq, Repr

namespace Outcome

/-- A success. -/
def success (output remark : String) : Outcome :=
  ⟨0, output, remark, #[]⟩

/-- A failure. -/
def failure (f : Failure) : Outcome :=
  ⟨1, "", "❌ " ++ f.message ++ "\n", #[]⟩

/-- Arguments that are not those of the command. -/
def misuse : Outcome :=
  ⟨2, "", "", #[]⟩

/-- The outcome of something that may fail. -/
def ofExcept : Except Failure Outcome → Outcome
  | .ok o => o
  | .error f => failure f

/-- An outcome with the notices that are urgent enough to be shown. -/
def withJournal (o : Outcome) (verbosity : Nat) (journal : Journal) : Outcome :=
  { o with journal := journal.filter (·.urgency.shownAt verbosity) }

end Outcome

/-- A text as the standard output shows it: without blanks at its end, and with a line feed. -/
def line (text : String) : String :=
  String.ofList (Text.trimEnd text.toList) ++ "\n"

end Command

end TreeEdit
