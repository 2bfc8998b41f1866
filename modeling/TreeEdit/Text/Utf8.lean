/-!
# Texts as bytes

Texts are stored in UTF-8. Reading is lenient or strict. Both cut the bytes into pieces first: a
piece is either the whole encoding of one character, or the longest run of bytes that starts such
an encoding and does not go on with it (at least one byte). The lenient reading puts the replacement
character U+FFFD for each piece of the second kind, the strict one refuses the bytes.

The allowed second bytes are narrower after the lead bytes 0xE0, 0xED, 0xF0 and 0xF4, so that no
character has two encodings and no surrogate has one.
-/

namespace TreeEdit.Text.Utf8

/-! ## Writing -/

/-- The encoding of a text. -/
def encode (s : String) : List UInt8 :=
  s.toList.flatMap String.utf8EncodeChar

/-! ## Pieces -/

/-- A byte that continues an encoding. -/
def isTail (b : UInt8) : Bool :=
  0x80 ≤ b && b ≤ 0xBF

/-- The low six bits of a continuing byte. -/
def tailBits (b : UInt8) : Nat :=
  b.toNat % 64

/-- The number of bytes that must follow a lead byte, with the least and the greatest second byte;
`none` for a byte that starts no encoding of several bytes. -/
def leadOf (b : UInt8) : Option (Nat × UInt8 × UInt8) :=
  if 0xC2 ≤ b && b ≤ 0xDF then some (1, 0x80, 0xBF)
  else if b == 0xE0 then some (2, 0xA0, 0xBF)
  else if b == 0xED then some (2, 0x80, 0x9F)
  else if 0xE1 ≤ b && b ≤ 0xEF then some (2, 0x80, 0xBF)
  else if b == 0xF0 then some (3, 0x90, 0xBF)
  else if b == 0xF4 then some (3, 0x80, 0x8F)
  else if 0xF1 ≤ b && b ≤ 0xF3 then some (3, 0x80, 0xBF)
  else none

/-- Takes `n` continuing bytes after the bits `acc`. The answer holds the bits read, if all `n`
bytes were there, and the bytes left. -/
def tails : Nat → Nat → List UInt8 → Option Nat × List UInt8
  | 0, acc, bs => (some acc, bs)
  | _ + 1, _, [] => (none, [])
  | n + 1, acc, b :: bs =>
    if isTail b then tails n (64 * acc + tailBits b) bs else (none, b :: bs)

/-- Cuts the first piece off `b :: bs`: its character, if it is a whole encoding, and the rest. -/
def piece (b : UInt8) (bs : List UInt8) : Option Char × List UInt8 :=
  if b < 0x80 then (some (Char.ofNat b.toNat), bs)
  else
    match leadOf b, bs with
    | some (n, low, high), c :: cs =>
      if low ≤ c && c ≤ high then
        let lead := if n = 1 then b.toNat % 32 else if n = 2 then b.toNat % 16 else b.toNat % 8
        let (bits, rest) := tails (n - 1) (64 * lead + tailBits c) cs
        (bits.map Char.ofNat, rest)
      else (none, c :: cs)
    | _, bs => (none, bs)

theorem length_tails_le (n acc : Nat) (bs : List UInt8) :
    (tails n acc bs).2.length ≤ bs.length := by
  induction n generalizing acc bs with
  | zero => simp [tails]
  | succ n ih =>
    cases bs with
    | nil => simp [tails]
    | cons b bs =>
      rw [tails]
      split
      · exact Nat.le_succ_of_le (ih _ _)
      · exact Nat.le_refl _

theorem length_piece_le (b : UInt8) (bs : List UInt8) :
    (piece b bs).2.length ≤ bs.length := by
  unfold piece
  split
  · exact Nat.le_refl _
  · split
    · split
      · exact Nat.le_succ_of_le (length_tails_le _ _ _)
      · exact Nat.le_refl _
    · exact Nat.le_refl _

/-- The pieces of a byte string, in order: a character each, or `none` where no character stands. -/
def pieces : List UInt8 → List (Option Char)
  | [] => []
  | b :: bs => (piece b bs).1 :: pieces (piece b bs).2
termination_by bs => bs.length
decreasing_by exact Nat.lt_succ_of_le (length_piece_le b bs)

/-! ## Reading -/

/-- Reads bytes leniently: U+FFFD stands for each piece that is no character. -/
def decodeLossy (bs : List UInt8) : String :=
  String.ofList ((pieces bs).map (·.getD '\uFFFD'))

/-- Reads bytes strictly: they must be encodings of characters throughout. -/
def decode? (bs : List UInt8) : Option String :=
  ((pieces bs).mapM id).map String.ofList

end TreeEdit.Text.Utf8
