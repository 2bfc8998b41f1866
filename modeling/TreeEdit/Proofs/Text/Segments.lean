import Mathlib.Data.List.Forall2
import Mathlib.Data.List.TakeWhile
import TreeEdit.Proofs.Text.Lines

/-!
# What stands between line feeds

The lines of a text are what stands between its line feeds, except that a carriage return goes with
the line feed after it and that there is no empty line at the end (`lines_segments`). What stands
between line feeds is simpler to work with, because it is the same wherever the text is cut at a
line feed (`segments_append_newline`).

Blanks at the ends of a line make no difference to what is left when they are cut off
(`trim_surround`). A text may also be cut after any number of its lines (`lines_firstLines`).
-/

namespace TreeEdit.Text

variable {l r w w' : List Char}

/-! ## Segments -/

/-- What stands between the line feeds of a text. -/
def segments : List Char → List (List Char)
  | [] => [[]]
  | c :: r => if c = '\n' then [] :: segments r else (segments r).modifyHead (c :: ·)

@[simp] theorem segments_newline (r : List Char) : segments ('\n' :: r) = [] :: segments r := rfl

theorem segments_cons {c : Char} (hc : c ≠ '\n') (r : List Char) :
    segments (c :: r) = (segments r).modifyHead (c :: ·) :=
  if_neg hc

/-- There is something before the first line feed. -/
theorem exists_segments_eq_cons (cs : List Char) : ∃ l ls, segments cs = l :: ls := by
  induction cs with
  | nil => exact ⟨[], [], rfl⟩
  | cons c r ih =>
    obtain ⟨l, ls, h⟩ := ih
    by_cases hc : c = '\n'
    · subst hc
      exact ⟨[], segments r, rfl⟩
    · refine ⟨c :: l, ls, ?_⟩
      rw [segments_cons hc, h, List.modifyHead_cons]

/-- Cut at a line feed, a text falls into the segments of its parts. -/
theorem segments_append_newline (p q : List Char) :
    segments (p ++ '\n' :: q) = segments p ++ segments q := by
  induction p with
  | nil => rfl
  | cons c p ih =>
    rw [List.cons_append]
    by_cases hc : c = '\n'
    · subst hc
      rw [segments_newline, segments_newline, ih, List.cons_append]
    · obtain ⟨l, ls, h⟩ := exists_segments_eq_cons p
      rw [segments_cons hc, segments_cons hc, ih, h, List.cons_append, List.modifyHead_cons,
        List.modifyHead_cons, List.cons_append]

theorem segments_of_line (h : '\n' ∉ l) : segments l = [l] := by
  induction l with
  | nil => rfl
  | cons c l ih =>
    rw [List.mem_cons, not_or] at h
    rw [segments_cons (Ne.symm h.1), ih h.2, List.modifyHead_cons]

theorem length_segments (cs : List Char) : (segments cs).length = cs.count '\n' + 1 := by
  induction cs with
  | nil => rfl
  | cons c r ih =>
    by_cases hc : c = '\n'
    · subst hc
      rw [segments_newline, List.length_cons, ih, List.count_cons_self]
    · rw [segments_cons hc, List.length_modifyHead, ih, List.count_cons_of_ne (by simpa using hc)]

/-! ### One line in a text -/

/-- A line starts after this text. -/
inductive StartsLine : List Char → Prop
  | first : StartsLine []
  | after (p : List Char) : StartsLine (p ++ ['\n'])

/-- A line ends before this text. -/
inductive EndsLine : List Char → Prop
  | last : EndsLine []
  | before (q : List Char) : EndsLine ('\n' :: q)

/-- The segments of what starts a line come after those of what stands before. -/
theorem StartsLine.exists_segments {p : List Char} (h : StartsLine p) :
    ∃ A, ∀ q, segments (p ++ q) = A ++ segments q := by
  cases h with
  | first => exact ⟨[], fun q => rfl⟩
  | after p =>
    refine ⟨segments p, fun q => ?_⟩
    rw [List.append_assoc, List.singleton_append, segments_append_newline]

theorem EndsLine.exists_segments {q : List Char} (h : EndsLine q) :
    ∃ B, ∀ l, '\n' ∉ l → segments (l ++ q) = l :: B := by
  cases h with
  | last => exact ⟨[], fun l hl => by rw [List.append_nil, segments_of_line hl]⟩
  | before q =>
    refine ⟨segments q, fun l hl => ?_⟩
    rw [segments_append_newline, segments_of_line hl, List.singleton_append]

/-- The other segments do not depend on what stands on a line. -/
theorem exists_segments_around {before after : List Char} (hb : StartsLine before)
    (ha : EndsLine after) :
    ∃ A B, ∀ l, '\n' ∉ l → segments (before ++ (l ++ after)) = A ++ l :: B := by
  obtain ⟨A, hA⟩ := hb.exists_segments
  obtain ⟨B, hB⟩ := ha.exists_segments
  exact ⟨A, B, fun l hl => by rw [hA, hB l hl]⟩

/-- What is put at the end of a text without a line feed goes to its last segment. -/
theorem exists_segments_append (p : List Char) :
    ∃ A l, ∀ w, '\n' ∉ w → segments (p ++ w) = A ++ [l ++ w] := by
  induction p with
  | nil => exact ⟨[], [], fun w hw => segments_of_line hw⟩
  | cons c p ih =>
    obtain ⟨A, l, h⟩ := ih
    by_cases hc : c = '\n'
    · subst hc
      exact ⟨[] :: A, l, fun w hw => by rw [List.cons_append, segments_newline, h w hw]; rfl⟩
    · cases A with
      | nil =>
        refine ⟨[], c :: l, fun w hw => ?_⟩
        rw [List.cons_append, segments_cons hc, h w hw]
        rfl
      | cons a A =>
        refine ⟨(c :: a) :: A, l, fun w hw => ?_⟩
        rw [List.cons_append, segments_cons hc, h w hw]
        rfl

/-! ### Lines -/

/-- The second text is the line `l`, with or without a carriage return at its end. -/
inductive Ended : List Char → List Char → Prop
  | bare (l : List Char) : Ended l l
  | returned (l : List Char) : Ended l (l ++ ['\r'])

theorem Ended.cons {l l' : List Char} (h : Ended l l') (c : Char) : Ended (c :: l) (c :: l') := by
  cases h with
  | bare => exact .bare _
  | returned => exact .returned (c :: l)

theorem lines_eq_nil_iff {cs : List Char} : lines cs = [] ↔ cs = [] := by
  constructor
  · intro h
    induction cs with
    | nil => rfl
    | cons c r ih =>
      rw [lines] at h
      split at h
      · cases h
      · split at h
        · rename_i hc
          rw [ih h] at hc
          cases hc.2
        · split at h <;> cases h
  · rintro rfl
    rfl

/-- The lines are the segments, up to carriage returns and what is empty after the last line. -/
theorem lines_segments (cs : List Char) :
    ∃ rest, (rest = [] ∨ rest = [[]]) ∧ List.Forall₂ Ended (lines cs ++ rest) (segments cs) := by
  induction cs with
  | nil => exact ⟨[[]], .inr rfl, .cons (.bare []) .nil⟩
  | cons c r ih =>
    obtain ⟨rest, hrest, h⟩ := ih
    rw [lines]
    split
    · rename_i hc
      subst hc
      exact ⟨rest, hrest, .cons (.bare []) h⟩
    rename_i hc
    rw [segments_cons hc]
    split
    · -- the carriage return stands at the end of an empty line
      rename_i hcr
      obtain ⟨rfl, hhead⟩ := hcr
      obtain ⟨q, rfl⟩ : ∃ q, r = '\n' :: q := List.head?_eq_some_iff.mp hhead
      rw [lines_newline] at h ⊢
      cases h with
      | cons _ h => exact ⟨rest, hrest, .cons (.returned []) h⟩
    · cases hr : lines r with
      | nil =>
        rw [lines_eq_nil_iff.mp hr]
        exact ⟨[], .inl rfl, .cons (.bare [c]) .nil⟩
      | cons l ls =>
        rw [hr] at h
        obtain ⟨l', ls', hseg⟩ := exists_segments_eq_cons r
        rw [hseg] at h ⊢
        cases h with
        | cons hl h => exact ⟨rest, hrest, .cons (hl.cons c) h⟩

/-! ### The first lines -/

/-- The text up to the end of the line with number `k`. -/
def firstLines : Nat → List Char → List Char
  | 0, _ => []
  | _ + 1, [] => []
  | k + 1, c :: r => if c = '\n' then '\n' :: firstLines k r else c :: firstLines (k + 1) r

theorem head?_firstLines (k : Nat) (cs : List Char) :
    (firstLines (k + 1) cs).head? = cs.head? := by
  cases cs with
  | nil => rfl
  | cons c r =>
    rw [firstLines]
    split
    · rename_i hc
      exact congrArg some hc.symm
    · rfl

theorem lines_firstLines (k : Nat) (cs : List Char) :
    lines (firstLines k cs) = (lines cs).take k := by
  induction cs generalizing k with
  | nil => cases k <;> rfl
  | cons c r ih =>
    cases k with
    | zero => rfl
    | succ k =>
      rw [firstLines, lines]
      split
      · rw [lines_newline, ih, List.take_succ_cons]
      · rename_i hc
        rw [lines, if_neg hc, head?_firstLines, ih]
        split
        · rfl
        · cases lines r with
          | nil => simp
          | cons l ls => rfl

/-! ## Blanks at the ends of a line -/

/-- All characters are blank. -/
def Blanks (w : List Char) : Prop :=
  ∀ c ∈ w, isBlank c = true

theorem trimStart_append (hw : Blanks w) (l : List Char) : trimStart (w ++ l) = trimStart l :=
  List.dropWhile_append_of_pos hw

theorem trimEnd_append (l : List Char) (hw : Blanks w) : trimEnd (l ++ w) = trimEnd l := by
  have hrev : Blanks w.reverse := fun c hc => hw c (List.mem_reverse.mp hc)
  rw [trimEnd, List.reverse_append, trimStart_append hrev, trimEnd]

/-- A text ends with what is cut off. -/
theorem exists_eq_trimEnd_append (l : List Char) : ∃ w, Blanks w ∧ l = trimEnd l ++ w := by
  refine ⟨(l.reverse.takeWhile isBlank).reverse, fun c hc => ?_, ?_⟩
  · exact List.mem_takeWhile_imp (List.mem_reverse.mp hc)
  · rw [trimEnd, trimStart, ← List.reverse_append, List.takeWhile_append_dropWhile,
      List.reverse_reverse]

theorem trimEnd_eq_nil_iff : trimEnd l = [] ↔ Blanks l := by
  constructor
  · intro h
    obtain ⟨w, hw, hl⟩ := exists_eq_trimEnd_append l
    rw [h, List.nil_append] at hl
    exact hl ▸ hw
  · exact trimEnd_append []

theorem exists_eq_append_trimStart (l : List Char) : ∃ w, Blanks w ∧ l = w ++ trimStart l :=
  ⟨l.takeWhile isBlank, fun _ => List.mem_takeWhile_imp, List.takeWhile_append_dropWhile.symm⟩

/-- Either all that was added is cut off again, or nothing before it. -/
theorem trimEnd_append_cases (l r : List Char) :
    trimEnd r = [] ∧ trimEnd (l ++ r) = trimEnd l ∨
      trimEnd r ≠ [] ∧ trimEnd (l ++ r) = l ++ trimEnd r := by
  by_cases h : trimEnd r = []
  · exact .inl ⟨h, trimEnd_append l (trimEnd_eq_nil_iff.mp h)⟩
  · refine .inr ⟨h, ?_⟩
    have hne : trimStart r.reverse ≠ [] := fun h' => h (congrArg List.reverse h')
    rw [trimEnd, trimStart, List.reverse_append, List.dropWhile_append, if_neg, List.reverse_append,
      List.reverse_reverse]
    · rfl
    · rwa [List.isEmpty_iff]

/-- A character that is not blank is kept, and so is all that stands before it. -/
theorem trimEnd_append_cons {c : Char} (hc : isBlank c = false) (l r : List Char) :
    trimEnd (l ++ c :: r) = l ++ c :: trimEnd r := by
  have hlast (l : List Char) : trimEnd (l ++ [c]) = l ++ [c] := by
    rw [trimEnd, trimStart, List.reverse_append, List.reverse_singleton, List.singleton_append,
      List.dropWhile_cons_of_neg (by simp [hc]), List.reverse_cons, List.reverse_reverse]
  rw [← List.singleton_append, ← List.append_assoc]
  rcases trimEnd_append_cases (l ++ [c]) r with ⟨hr, h⟩ | ⟨-, h⟩
  · rw [h, hr, hlast]
  · rw [h, List.append_assoc, List.singleton_append]

theorem trim_append (l : List Char) (hw : Blanks w) : trim (l ++ w) = trim l := by
  rw [trim, trim, trimStart, List.dropWhile_append]
  split
  · rename_i h
    rw [List.isEmpty_iff] at h
    rw [trimStart, h, List.dropWhile_eq_nil_iff.mpr hw]
  · exact trimEnd_append _ hw

theorem trim_surround (hw : Blanks w) (l : List Char) (hw' : Blanks w') :
    trim (w ++ (l ++ w')) = trim l := by
  rw [trim, trimStart_append hw]
  exact trim_append l hw'

theorem Ended.trim_eq {l l' : List Char} (h : Ended l l') : trim l' = trim l := by
  cases h with
  | bare => rfl
  | returned =>
    refine trim_append l fun c hc => ?_
    obtain rfl := List.mem_singleton.mp hc
    rfl

end TreeEdit.Text
