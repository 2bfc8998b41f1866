import TreeEdit.Files.System
import TreeEdit.OrderedMap

/-!
# A file system as a value

A `Files.Tree` is what lies in and around a working directory: directories and files by the names
that lead to them. Paths are walked piece by piece, and each piece, also one that says nothing,
needs a directory to stand in. Two dots lead one directory up, from the working directory to
directories of which nothing is known but that they exist. A slash at the start leads to the root,
of which nothing else is known either.
-/

namespace TreeEdit.Files

open Binary (Bytes)

/-- The pieces that lead from the working directory to a place: two dots as often as needed, or the
slash of the root, and then names only. -/
abbrev Place := List (List Char)

/-- What stands at a place. -/
inductive Occupant
  | directory
  | file (bytes : Bytes)
  deriving DecidableEq, Repr

/-- The contents of a file system and its standard input. -/
structure Tree where
  /-- What stands at each place, other than the directories that are always there. -/
  occupants : OrderedMap Place Occupant
  /-- What the standard input holds. -/
  standardInput : Bytes

namespace Tree

/-- An empty working directory. -/
def empty (standardInput : Bytes) : Tree :=
  ⟨.empty, standardInput⟩

/-- The place of the root. -/
def root : Place := [['/']]

/-- Two dots, which lead one directory up. -/
def up : List Char := ['.', '.']

/-- Whether a place is a directory in any case: the root, the working directory, or one that the
working directory lies in. -/
def isGiven (place : Place) : Bool :=
  place = root || place.all (· = up)

/-- What stands at a place. -/
def occupant? (t : Tree) (place : Place) : Option Occupant :=
  if isGiven place then some .directory else t.occupants.get? place

/-- Puts something at a place. -/
def occupy (t : Tree) (place : Place) (occupant : Occupant) : Tree :=
  { t with occupants := t.occupants.put place occupant }

/-! ## Walking -/

/-- Checks that there is a directory at a place. -/
def enter (t : Tree) (place : Place) : Except FileError Unit :=
  match t.occupant? place with
  | some .directory => .ok ()
  | some (.file _) => .error .notADirectory
  | none => .error .notFound

/-- Whether a piece of a path is a name. -/
def isName (piece : List Char) : Bool :=
  piece ≠ [] ∧ piece ≠ ['.'] ∧ piece ≠ up

/-- The greatest number of bytes in a name. -/
def maxName : Nat := 255

/-- The greatest number of bytes in a path. -/
def maxPath : Nat := 4095

/-- Checks that a piece of a path is not too long. -/
def checkName (piece : List Char) : Except FileError Unit :=
  if (String.ofList piece).utf8ByteSize ≤ maxName then .ok () else .error .nameTooLong

/-- The place that a piece leads to. -/
def follow (place : Place) (piece : List Char) : Place :=
  if isName piece then place ++ [piece]
  else if piece = up then
    if place = root then root
    else if isGiven place then place ++ [up]
    else place.dropLast
  else place

/-- The place that pieces lead to. Nothing needs to stand there. -/
def walk (t : Tree) (place : Place) : List (List Char) → Except FileError Place
  | [] => .ok place
  | piece :: pieces => do
    t.enter place
    checkName piece
    t.walk (follow place piece) pieces

/-- The place where a path starts, and its pieces. -/
def readPath (path : String) : Except FileError (Place × List (List Char)) :=
  if path.toList.contains '\x00' then .error .zeroInPath
  else if path = "" then .error .notFound
  else if maxPath < path.utf8ByteSize then .error .nameTooLong
  else
    match path.toList with
    | '/' :: cs => .ok (root, Path.pieces cs)
    | cs => .ok ([], Path.pieces cs)

/-- What stands where a path leads. -/
def find (t : Tree) (path : String) : Except FileError Occupant := do
  let (start, pieces) ← readPath path
  match t.occupant? (← t.walk start pieces) with
  | some occupant => return occupant
  | none => throw .notFound

/-- Pieces without the empty ones at their end, which stand for slashes at the end of the path. -/
def dropSlashes (pieces : List (List Char)) : List (List Char) :=
  (pieces.reverse.dropWhile (· = [])).reverse

/-- The directory that the last of some pieces stands in, and that piece. -/
def approach (t : Tree) (start : Place) (pieces : List (List Char)) :
    Except FileError (Place × List Char) := do
  let place ← t.walk start pieces.dropLast
  t.enter place
  return (place, pieces.getLast?.getD [])

/-! ## Operations -/

/-- The bytes of a file. -/
def read (t : Tree) (path : String) : Except FileError Bytes := do
  match ← t.find path with
  | .file bytes => return bytes
  | .directory => throw .isADirectory

/-- Creates a file, or replaces what it holds. A path that ends in a slash, in a dot or in two can
only be one of a directory. -/
def write (t : Tree) (path : String) (bytes : Bytes) : Except FileError Tree := do
  let (start, pieces) ← readPath path
  let (place, last) ← t.approach start (dropSlashes pieces)
  if isName last ∧ pieces = dropSlashes pieces then
    checkName last
    let place := place ++ [last]
    match t.occupant? place with
    | some .directory => throw .isADirectory
    | _ => return t.occupy place (.file bytes)
  else
    throw .isADirectory

/-- Creates a directory. Slashes at the end of its path do not count. -/
def createDirectory (t : Tree) (path : String) : Except FileError Tree := do
  let (start, pieces) ← readPath path
  let (place, last) ← t.approach start (dropSlashes pieces)
  checkName last
  let place := follow place last
  match t.occupant? place with
  | some _ => throw .alreadyExists
  | none => return t.occupy place .directory

/-- Whether there is a directory where a path leads. -/
def isDirectory (t : Tree) (path : String) : Bool :=
  match t.find path with
  | .ok .directory => true
  | _ => false

/-- An operation that changes the tree if it succeeds. -/
def attempt (f : Tree → Except FileError Tree) : StateM Tree (Except FileError Unit) := fun t =>
  match f t with
  | .ok t => (.ok (), t)
  | .error e => (.error e, t)

/-- The tree as a file system. -/
def system : System (StateM Tree) where
  read path := return (← get).read path
  write path bytes := attempt (·.write path bytes)
  createDirectory path := attempt (·.createDirectory path)
  isDirectory path := return (← get).isDirectory path
  readStandardInput := return .ok (← get).standardInput

end Tree

end TreeEdit.Files
