import TreeEdit.Fault
import TreeEdit.Text.Blank

/-!
# Tokens of the source notation

A line of the source notation is a row of words and text literals. Blanks separate tokens but need
not stand between a word and a literal; a semicolon outside a literal starts a comment that takes
the rest of the line. Inside a literal every character stands for itself, except the quote that ends
it and the four escapes `\n`, `\t`, `\"` and `\\`.
-/

namespace TreeEdit.Source

open Text (isBlank)

/-- A token of a source line. -/
inductive Token
  /-- A run of characters outside quotes. -/
  | word (word : String)
  /-- A text literal, with its escapes resolved. -/
  | text (text : String)
  deriving DecidableEq, Repr, Inhabited

/-! ## Text literals -/

/-- What a backslash and the character after it stand for. -/
def unescape? : Char → Option Char
  | 'n' => some '\n'
  | 't' => some '\t'
  | '"' => some '"'
  | '\\' => some '\\'
  | _ => none

/-- Reads a text literal whose opening quote has been taken off. The answer is the text, and what
follows the closing quote. -/
def readLiteral : List Char → Except SourceProblem (List Char × List Char)
  | [] => .error .unterminatedText
  | '"' :: r => .ok ([], r)
  | ['\\'] => .error .unterminatedText
  | '\\' :: c :: r =>
    match unescape? c with
    | some d => (readLiteral r).map fun (s, rest) => (d :: s, rest)
    | none => .error (.unknownEscape c)
  | c :: r => (readLiteral r).map fun (s, rest) => (c :: s, rest)

theorem length_of_readLiteral {cs s rest : List Char} (h : readLiteral cs = .ok (s, rest)) :
    rest.length < cs.length := by
  have step {d : Char} {r : List Char} {s : List Char}
      (ih : ∀ s', readLiteral r = .ok (s', rest) → rest.length < r.length)
      (h : (readLiteral r).map (fun x => (d :: x.1, x.2)) = .ok (s, rest)) :
      rest.length < r.length := by
    cases hr : readLiteral r with
    | error p => simp [hr, Except.map] at h
    | ok x =>
      obtain ⟨s', rest'⟩ := x
      simp only [hr, Except.map, Except.ok.injEq, Prod.mk.injEq] at h
      exact ih s' (by rw [hr, h.2])
  fun_induction readLiteral cs generalizing s with
  | case1 => simp at h
  | case2 r =>
    simp only [Except.ok.injEq, Prod.mk.injEq] at h
    simp [h.2]
  | case3 => simp at h
  | case4 c r d _ ih =>
    have := step (fun s' h' => ih h') h
    simp only [List.length_cons]
    omega
  | case5 => simp at h
  | case6 c r _ _ _ ih =>
    have := step (fun s' h' => ih h') h
    simp only [List.length_cons]
    omega

/-! ## Lines -/

/-- A character that goes on with a word. -/
def inWord (c : Char) : Bool :=
  !(isBlank c || c == '"' || c == ';')

theorem length_dropWhile_le (p : Char → Bool) (cs : List Char) :
    (cs.dropWhile p).length ≤ cs.length :=
  (List.dropWhile_sublist p).length_le

/-- The tokens of a line. -/
def tokens : List Char → Except SourceProblem (List Token)
  | [] => .ok []
  | c :: r =>
    if isBlank c then tokens r
    else if c = ';' then .ok []
    else if c = '"' then
      match _h : readLiteral r with
      | .error p => .error p
      | .ok (s, rest) => (tokens rest).map (.text (String.ofList s) :: ·)
    else
      (tokens (r.dropWhile inWord)).map (.word (String.ofList (c :: r.takeWhile inWord)) :: ·)
termination_by cs => cs.length
decreasing_by
  · exact Nat.lt_succ_self _
  · exact Nat.lt_succ_of_lt (length_of_readLiteral _h)
  · exact Nat.lt_succ_of_le (length_dropWhile_le _ _)

end TreeEdit.Source
