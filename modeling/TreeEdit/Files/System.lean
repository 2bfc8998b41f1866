import TreeEdit.Binary.Word
import TreeEdit.Files.Path
import TreeEdit.Text.Utf8

/-!
# Files

What the commands need of a file system, as operations in any monad, so that the same commands work
on the files of a computer and on a `Files.Tree` that is only a value. Operations fail with a
`FileError`; `createDirectories`, `writeAll` and `readText` are built from them.
-/

namespace TreeEdit.Files

open Binary (Bytes)

/-! ## Errors -/

/-- Why a file operation fails. -/
inductive FileError
  /-- There is nothing at the path. -/
  | notFound
  /-- A file was expected, and there is a directory. -/
  | isADirectory
  /-- A directory was expected on the way, and there is a file. -/
  | notADirectory
  /-- There is something at the path already. -/
  | alreadyExists
  /-- A name, or the path as a whole, is longer than the file system takes. -/
  | nameTooLong
  /-- The path holds the character with code 0, which no name can hold. -/
  | zeroInPath
  /-- The file holds bytes that are no text. -/
  | notText
  /-- A reason that the file system states in its own words. -/
  | stated (words : String)
  deriving DecidableEq, Repr, Inhabited

/-- The wording of a file error. -/
def FileError.message : FileError → String
  | notFound => "No such file or directory (os error 2)"
  | isADirectory => "Is a directory (os error 21)"
  | notADirectory => "Not a directory (os error 20)"
  | alreadyExists => "File exists (os error 17)"
  | nameTooLong => "File name too long (os error 36)"
  | zeroInPath => "file name contained an unexpected NUL byte"
  | notText => "stream did not contain valid UTF-8"
  | stated words => words

/-! ## File systems -/

/-- The operations of a file system. -/
structure System (m : Type → Type) where
  /-- The bytes of a file. -/
  read : String → m (Except FileError Bytes)
  /-- Creates a file, or replaces what it holds. -/
  write : String → Bytes → m (Except FileError Unit)
  /-- Creates a directory in a directory that exists. -/
  createDirectory : String → m (Except FileError Unit)
  /-- Whether there is a directory at a path. -/
  isDirectory : String → m Bool
  /-- The bytes of the standard input. -/
  readStandardInput : m (Except FileError Bytes)

namespace System

variable {m : Type → Type} [Monad m]

/-- Takes the failure to create a directory for a success if the directory is there. -/
def tolerate (fs : System m) (path : String) : Except FileError Unit → m (Except FileError Unit)
  | .ok () => return .ok ()
  | .error e => do return if ← fs.isDirectory path then .ok () else .error e

/-- Creates the first of some directories, each of which lies in the one after it. Those after the
first are created only if they turn out to be missing. -/
def createAlong (fs : System m) : List String → m (Except FileError Unit)
  | [] => return .error (.stated "failed to create whole tree")
  | path :: above => do
    if path = "" then
      return .ok ()
    match ← fs.createDirectory path with
    | .error .notFound =>
      match ← createAlong fs above with
      | .error e => return .error e
      | .ok () => fs.tolerate path (← fs.createDirectory path)
    | answer => fs.tolerate path answer

/-- Creates a directory and those it lies in, as far as they are missing. -/
def createDirectories (fs : System m) (path : String) : m (Except FileError Unit) :=
  fs.createAlong (Path.ancestors path)

/-- The text of a file. -/
def readText (fs : System m) (path : String) : m (Except FileError String) := do
  match ← fs.read path with
  | .error e => return .error e
  | .ok bytes =>
    match Text.Utf8.decode? bytes with
    | some text => return .ok text
    | none => return .error .notText

end System

end TreeEdit.Files
