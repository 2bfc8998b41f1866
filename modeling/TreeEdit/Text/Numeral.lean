/-!
# Numerals

Numbers are written in decimal and read back with a bound. A numeral is one or more of the digits
`0` to `9`, leading zeros allowed, with at most one sign before them; an unsigned numeral takes no
minus, not even before a zero. A value outside the bounds is no numeral of that kind at all.
-/

namespace TreeEdit.Text.Numeral

/-! ## Reading -/

/-- The number that a run of digits stands for, the most significant digit first. -/
def value (ds : List Char) : Nat :=
  ds.foldl (fun n d => 10 * n + (d.toNat - '0'.toNat)) 0

/-- Reads one or more digits and nothing else. -/
def digits? (cs : List Char) : Option Nat :=
  if cs ≠ [] ∧ cs.all Char.isDigit then some (value cs) else none

/-- `cs` without the plus sign it may start with. -/
def dropPlus : List Char → List Char
  | '+' :: ds => ds
  | ds => ds

/-- Reads an unsigned numeral of at most `limit`. -/
def unsigned? (limit : Nat) (cs : List Char) : Option Nat :=
  (digits? (dropPlus cs)).filter (· ≤ limit)

/-- Reads a signed numeral between `low` and `high`. -/
def signed? (low high : Int) (cs : List Char) : Option Int :=
  let read :=
    match cs with
    | '-' :: ds => (digits? ds).map fun n => -Int.ofNat n
    | ds => (digits? (dropPlus ds)).map Int.ofNat
  read.filter fun n => decide (low ≤ n ∧ n ≤ high)

/-! ## Kinds in use -/

/-- The greatest 8-bit number. -/
def maxByte : Nat := 0xFF

/-- The greatest 32-bit number. -/
def maxWord : Nat := 0xFFFFFFFF

/-- The greatest 64-bit number. -/
def maxLong : Nat := 0xFFFFFFFFFFFFFFFF

/-- Reads an unsigned numeral that fits a word. -/
def word? (s : String) : Option UInt32 :=
  (unsigned? maxWord s.toList).map Nat.toUInt32

/-! ## Writing -/

/-- The decimal digits of `n`. -/
def decimal (n : Nat) : String :=
  String.ofList (Nat.toDigits 10 n)

/-- The decimal digits of `n`, filled up with zeros on the left to at least `width`. -/
def zeroFilled (width n : Nat) : String :=
  let ds := Nat.toDigits 10 n
  String.ofList (List.replicate (width - ds.length) '0' ++ ds)

end TreeEdit.Text.Numeral
