import TreeEdit.Error
import TreeEdit.Files.System

/-!
# Failures of the tools

When a tool fails it says at which stage and why. The cause is kept as data. A failure is worded as
a chain from the stage to the innermost cause, with colons between its links; an error of a run that
comes from a fault of the program's form has the fault as a link of its own.
-/

namespace TreeEdit

open Text.Numeral (decimal)

/-- What a tool was doing when it failed. -/
inductive Stage
  /-- Assembling a source text. -/
  | assembling
  /-- Reading the instructions of a range. -/
  | decoding
  /-- Listing a range. -/
  | listing (start len : UInt32)
  /-- Running a program, for the time with this number. -/
  | applying (round : Nat)
  /-- Reading a file. -/
  | reading (path : String)
  /-- Reading the standard input. -/
  | readingStandardInput
  /-- Creating a directory. -/
  | creating (path : String)
  /-- Writing a file. -/
  | writing (path : String)
  deriving DecidableEq, Repr

/-- The wording of a stage. -/
def Stage.message : Stage → String
  | assembling => "assemblage"
  | decoding => "décodage"
  | listing start len => "plage @" ++ decimal start.toNat ++ "+" ++ decimal len.toNat
  | applying round => "application #" ++ decimal round
  | reading path => "lecture " ++ path
  | readingStandardInput => "lecture stdin"
  | creating path => "création " ++ path
  | writing path => "écriture " ++ path

/-- Why a tool fails. -/
inductive Cause
  /-- The program is malformed. -/
  | fault (fault : Fault)
  /-- The run of the program ended early. -/
  | error (error : Error)
  /-- A file operation failed. -/
  | file (error : Files.FileError)
  /-- The source text is no text. -/
  | sourceNotText
  /-- The first instruction would lie beyond the `size` bytes there are. -/
  | startBeyond (start : UInt32) (size : Nat)
  /-- There are more bytes than a word can count. -/
  | tooLarge (size : Nat)
  deriving DecidableEq, Repr

/-- The wordings of a cause, the innermost last. -/
def Cause.links : Cause → List String
  | fault f => [f.message]
  | error (.fault f) => [(Error.fault f).message, f.message]
  | error e => [e.message]
  | file e => [e.message]
  | sourceNotText => ["source non UTF-8"]
  | startBeyond start size =>
    ["--start " ++ decimal start.toNat ++ " au-delà du buffer (" ++ decimal size ++ " octets)"]
  | tooLarge size => ["buffer trop grand (" ++ decimal size ++ " octets)"]

/-- How a tool fails. -/
structure Failure where
  /-- What the tool was doing, if that says more than the cause. -/
  stage : Option Stage
  cause : Cause
  deriving DecidableEq, Repr

namespace Failure

/-- A failure without a stage. -/
def ofCause (cause : Cause) : Failure :=
  ⟨none, cause⟩

/-- A failure at a stage. -/
def during (stage : Stage) (cause : Cause) : Failure :=
  ⟨some stage, cause⟩

/-- The links of a failure, the outermost first. -/
def links (f : Failure) : List String :=
  (f.stage.map Stage.message).toList ++ f.cause.links

/-- The wording of a failure. -/
def message (f : Failure) : String :=
  ": ".intercalate f.links

end Failure

end TreeEdit
