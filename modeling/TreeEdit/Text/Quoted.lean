import TreeEdit.Text.Unprintable

/-!
# Quoted texts

A quoted text stands between double quotes on one line: tab, carriage return, line feed, zero,
backslash and the quote itself have short escapes, and every other character without a printed form
is written by its code point. `excerpt` cuts a long text before it is quoted and marks the cut
after the closing quote, so that the mark cannot be taken for a part of the text.
-/

namespace TreeEdit.Text.Quoted

/-! ## Escapes -/

/-- The lower-case hexadecimal digits of `n`, without leading zeros. -/
def hexadecimal (n : Nat) : List Char :=
  Nat.toDigits 16 n

/-- How one character is written inside quotes. -/
def escape (c : Char) : List Char :=
  match c with
  | '\x00' => ['\\', '0']
  | '\t' => ['\\', 't']
  | '\r' => ['\\', 'r']
  | '\n' => ['\\', 'n']
  | '"' => ['\\', '"']
  | '\\' => ['\\', '\\']
  | c => if isUnprintable c then ['\\', 'u', '\x7b'] ++ hexadecimal c.toNat ++ ['\x7d'] else [c]

/-- A text between quotes. -/
def quote (cs : List Char) : List Char :=
  '"' :: cs.flatMap escape ++ ['"']

/-! ## Excerpts -/

/-- The number of characters that an excerpt shows. -/
def excerptLength : Nat := 64

/-- A text between quotes, cut after `excerptLength` characters. -/
def excerpt (cs : List Char) : List Char :=
  if cs.length ≤ excerptLength then quote cs else quote (cs.take excerptLength) ++ ['…']

end TreeEdit.Text.Quoted
