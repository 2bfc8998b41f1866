/-!
# Paths

A path is a text whose pieces are separated by slashes. Empty pieces and pieces that are a single
dot say nothing, with one exception: a dot at the very start of a path that does not start at the
root. `parent?` takes the last piece that says something off, together with what follows it.
-/

namespace TreeEdit.Files.Path

/-- The pieces of a path, between its slashes. There is always at least one. -/
def pieces : List Char → List (List Char)
  | [] => [[]]
  | '/' :: cs => [] :: pieces cs
  | c :: cs =>
    match pieces cs with
    | p :: ps => (c :: p) :: ps
    | [] => [[c]]

/-- The text with the given pieces. -/
def ofPieces (ps : List (List Char)) : String :=
  String.ofList (['/'].intercalate ps)

/-- Drops the pieces at the end that say nothing. The pieces are given last first; `rooted` tells
whether they belong to a path that starts at the root. -/
def dropIdle (rooted : Bool) : List (List Char) → List (List Char)
  | [] => []
  | p :: above =>
    if p = [] ∨ p = ['.'] ∧ (rooted ∨ above ≠ []) then dropIdle rooted above else p :: above

/-- The path of the directory that a path leads into, which is the empty text for a single piece.
The root and the empty path have none. -/
def parent? (path : String) : Option String :=
  match pieces path.toList with
  | [] :: p :: ps =>
    match dropIdle true (p :: ps).reverse with
    | [] => none
    | _ :: above => some ("/" ++ ofPieces (dropIdle true above).reverse)
  | ps =>
    match dropIdle false ps.reverse with
    | [] => none
    | _ :: above => some (ofPieces (dropIdle false above).reverse)

/-- A path and the paths above it, the deepest first, no more than `limit` of them. -/
def ancestorsWithin : Nat → String → List String
  | 0, _ => []
  | limit + 1, path =>
    match parent? path with
    | some parent => path :: ancestorsWithin limit parent
    | none => [path]

/-- A path and the paths above it, the deepest first. A parent is shorter than its child, so there
are no more of them than the path has characters, and itself. -/
def ancestors (path : String) : List String :=
  ancestorsWithin (path.length + 1) path

end TreeEdit.Files.Path
