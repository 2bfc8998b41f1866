import TreeEdit.Failure

/-!
# Inputs and results of the tools

Reading and writing as the tools do it: a failure tells at which stage it arose and at which path.
A dash in place of a path is the standard input. Before a text is written, the directories
that it is to lie in are created.
-/

namespace TreeEdit.Files.System

variable {m : Type → Type} [Monad m] {α : Type}

/-- An answer whose failure is one of a stage. -/
def during (stage : Stage) (answer : Except FileError α) : Except Failure α :=
  answer.mapError fun e => .during stage (.file e)

/-- The bytes of a file. -/
def readBytes (fs : System m) (path : String) : m (Except Failure Binary.Bytes) := do
  return during (.reading path) (← fs.read path)

/-- The text of a file. -/
def readSource (fs : System m) (path : String) : m (Except Failure String) := do
  return during (.reading path) (← fs.readText path)

/-- The bytes of an input. -/
def readInput (fs : System m) (input : String) : m (Except Failure Binary.Bytes) := do
  if input = "-" then
    return during .readingStandardInput (← fs.readStandardInput)
  else
    fs.readBytes input

/-- Writes a text to a file, in a directory that is created if need be. -/
def writeText (fs : System m) (path text : String) : m (Except Failure Unit) := do
  let parent := (Path.parent? path).getD ""
  match during (.creating parent) (← fs.createDirectories parent) with
  | .error f => return .error f
  | .ok () => return during (.writing path) (← fs.write path (Text.Utf8.encode text))

end TreeEdit.Files.System
