import TreeEdit.Command.Tool

/-!
# The program

The outer layer: it gives the tools the files and the environment of the computer, and shows what
they answer. The first argument names the tool, the others are the tool's own.
-/

namespace TreeEdit

open Files (FileError System)

/-- Whether an error code of the computer is `n`. The sign of a code says nothing. -/
def isCode (n code : UInt32) : Bool :=
  code = n || code = 0 - n

/-- The file error that an error of the computer stands for. -/
def describeError (e : IO.Error) : FileError :=
  match e with
  | .noFileOrDirectory .. => .notFound
  | .alreadyExists .. => .alreadyExists
  | .inappropriateType _ code _ =>
    if isCode 20 code then .notADirectory
    else if isCode 21 code then .isADirectory
    else .stated e.toString
  | .invalidArgument _ code _ =>
    if isCode 36 code then .nameTooLong else .stated e.toString
  | e => .stated e.toString

/-- An action whose error is its answer. -/
def attempted {α : Type} (x : IO α) : IO (Except FileError α) := do
  match ← x.toBaseIO with
  | .ok a => return .ok a
  | .error e => return .error (describeError e)

/-- The files of the computer. -/
def computerFiles : System IO where
  read path := attempted do return (← IO.FS.readBinFile path).toList
  write path bytes := attempted (IO.FS.writeBinFile path ⟨bytes.toArray⟩)
  createDirectory path := attempted (IO.FS.createDir path)
  isDirectory path := do
    match ← (IO.FS.realPath path).toBaseIO with
    | .ok found => found.isDir
    | .error _ => return false
  readStandardInput := attempted do return (← (← IO.getStdin).readBinToEnd).toList

/-- The settings of the environment that matter. -/
def readSettings : IO (String → Option String) := do
  let strictStack ← IO.getEnv Config.strictStackSetting
  let traced ← IO.getEnv Config.tracedSetting
  let maxStackDepth ← IO.getEnv Config.maxStackDepthSetting
  return fun name =>
    if name = Config.strictStackSetting then strictStack
    else if name = Config.tracedSetting then traced
    else if name = Config.maxStackDepthSetting then maxStackDepth
    else none

/-- Shows an outcome. The answer is its code. -/
def showOutcome (o : Command.Outcome) : IO UInt32 := do
  for notice in o.journal do
    IO.eprintln notice.render
  IO.print o.output
  IO.eprint o.remark
  return o.code

end TreeEdit

open TreeEdit in
/-- Runs the tool that the first argument names. -/
def main (args : List String) : IO UInt32 := do
  match args with
  | [] => showOutcome .misuse
  | name :: args =>
    match Command.Tool.ofName? name with
    | none => showOutcome .misuse
    | some tool => do
      showOutcome (← tool.execute computerFiles (← readSettings) args)
