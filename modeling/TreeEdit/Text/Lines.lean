/-!
# Lines of a text

A line feed ends a line, and one carriage return right before that line feed goes with it. Every
other carriage return is part of its line. A text that ends with a line feed has no further empty
line after it.
-/

namespace TreeEdit.Text

/-- The lines of a text, without what ended them. -/
def lines : List Char → List (List Char)
  | [] => []
  | c :: r =>
    if c = '\n' then [] :: lines r
    else if c = '\r' ∧ r.head? = some '\n' then lines r
    else
      match lines r with
      | [] => [[c]]
      | l :: ls => (c :: l) :: ls

@[simp] theorem lines_newline (r : List Char) : lines ('\n' :: r) = [] :: lines r := rfl

end TreeEdit.Text
