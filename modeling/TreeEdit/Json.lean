import TreeEdit.Text.Numeral

/-!
# Structured output

The values that commands answer with when they are asked for structured output: numbers, texts,
lists, and objects with their members in order. `Json.pretty` writes a value over several lines, two
blanks deeper for each level, with nothing between the brackets of an empty list or object.
-/

namespace TreeEdit

/-- A value of structured output. -/
inductive Json
  | number (n : Nat)
  | text (text : String)
  | list (items : List Json)
  | object (members : List (String × Json))
  deriving Repr, Inhabited

namespace Json

/-! ## Objects -/

/-- The object with its members in the order of their names. -/
def sorted (members : List (String × Json)) : Json :=
  object (members.mergeSort fun a b => decide (a.1 ≤ b.1))

/-! ## Texts -/

/-- The two hexadecimal digits of a number below 256. -/
def hexByte (n : Nat) : List Char :=
  [Nat.digitChar (n / 16), Nat.digitChar (n % 16)]

/-- How one character is written inside quotes. Control characters are escaped, by a letter if there
is one for them; all other characters stand for themselves. -/
def escape : Char → List Char
  | '"' => ['\\', '"']
  | '\\' => ['\\', '\\']
  | '\x08' => ['\\', 'b']
  | '\x0c' => ['\\', 'f']
  | '\n' => ['\\', 'n']
  | '\r' => ['\\', 'r']
  | '\t' => ['\\', 't']
  | c => if c.toNat < 0x20 then ['\\', 'u', '0', '0'] ++ hexByte c.toNat else [c]

/-- A text between quotes. -/
def quote (s : String) : List Char :=
  '"' :: s.toList.flatMap escape ++ ['"']

/-! ## Layout -/

/-- The start of a new line at a depth. -/
def newLine (depth : Nat) : List Char :=
  '\n' :: List.replicate (2 * depth) ' '

mutual

/-- A value whose closing bracket stands at a depth. -/
def layout (depth : Nat) : Json → List Char
  | number n => Nat.toDigits 10 n
  | text s => quote s
  | list [] => ['[', ']']
  | list (v :: vs) =>
    '[' :: newLine (depth + 1) ++ layout (depth + 1) v ++ layoutItems depth vs ++
      newLine depth ++ [']']
  | object [] => ['\x7b', '\x7d']
  | object ((name, v) :: ms) =>
    '\x7b' :: newLine (depth + 1) ++ quote name ++ ':' :: ' ' :: layout (depth + 1) v ++
      layoutMembers depth ms ++ newLine depth ++ ['\x7d']

/-- The items after the first. -/
def layoutItems (depth : Nat) : List Json → List Char
  | [] => []
  | v :: vs => ',' :: newLine (depth + 1) ++ layout (depth + 1) v ++ layoutItems depth vs

/-- The members after the first. -/
def layoutMembers (depth : Nat) : List (String × Json) → List Char
  | [] => []
  | (name, v) :: ms =>
    ',' :: newLine (depth + 1) ++ quote name ++ ':' :: ' ' :: layout (depth + 1) v ++
      layoutMembers depth ms

end

/-- A value over several lines, without a line feed at its end. -/
def pretty (v : Json) : String :=
  String.ofList (layout 0 v)

end Json

end TreeEdit
