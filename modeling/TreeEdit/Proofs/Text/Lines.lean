import TreeEdit.Text.Blank
import TreeEdit.Text.Lines

/-!
# Lines that come back as they were

A text written line by line is split into the lines it was written from, whatever stands in them,
as long as no line holds a line feed or ends with a carriage return (`lines_flatMap_newline`). A
line that neither starts nor ends with a blank is not shortened (`Flush.trim_eq`).
-/

namespace TreeEdit.Text

/-! ## Splitting -/

/-- The line can be ended by a line feed and is found again. -/
structure IsLine (l : List Char) : Prop where
  /-- No line feed stands in it. -/
  whole : '\n' ∉ l
  /-- No carriage return at its end goes with the line feed. -/
  ending : l.getLast? ≠ some '\r'

theorem lines_append_newline {l : List Char} (h : IsLine l) (r : List Char) :
    lines (l ++ '\n' :: r) = l :: lines r := by
  induction l with
  | nil => exact lines_newline r
  | cons c l ih =>
    have hc : c ≠ '\n' := fun e => h.whole (e ▸ List.mem_cons_self)
    have hl : '\n' ∉ l := fun hm => h.whole (List.mem_cons_of_mem _ hm)
    -- the carriage return before the line feed would be the last character of the line
    have hcr : ¬(c = '\r' ∧ (l ++ '\n' :: r).head? = some '\n') := by
      rintro ⟨rfl, hhead⟩
      cases l with
      | nil => exact h.ending rfl
      | cons d l =>
        simp only [List.cons_append, List.head?_cons, Option.some.injEq] at hhead
        exact hl (hhead ▸ List.mem_cons_self)
    have hend : l.getLast? ≠ some '\r' := by
      cases l with
      | nil => simp
      | cons d l =>
        have hlast := h.ending
        rwa [List.getLast?_cons_cons] at hlast
    rw [List.cons_append, lines, if_neg hc, if_neg hcr, ih ⟨hl, hend⟩]

theorem lines_flatMap_newline {ls : List (List Char)} (h : ∀ l ∈ ls, IsLine l) :
    lines (ls.flatMap (· ++ ['\n'])) = ls := by
  induction ls with
  | nil => rfl
  | cons l ls ih =>
    rw [List.flatMap_cons, List.append_assoc, List.singleton_append,
      lines_append_newline (h l List.mem_cons_self),
      ih fun k hk => h k (List.mem_cons_of_mem _ hk)]

/-! ## Cutting blanks off -/

/-- `cs` starts and ends with characters that are not blank. -/
structure Flush (cs : List Char) : Prop where
  /-- The first character. -/
  first : ∃ c, cs.head? = some c ∧ isBlank c = false
  /-- The last character. -/
  last : ∃ c, cs.getLast? = some c ∧ isBlank c = false

theorem trimStart_eq {cs : List Char} (h : ∃ c, cs.head? = some c ∧ isBlank c = false) :
    trimStart cs = cs := by
  obtain ⟨c, hhead, hc⟩ := h
  cases cs with
  | nil => simp at hhead
  | cons d cs =>
    obtain rfl : d = c := by simpa using hhead
    rw [trimStart, List.dropWhile_cons_of_neg (by simp [hc])]

theorem Flush.trim_eq {cs : List Char} (h : Flush cs) : trim cs = cs := by
  have hrev : trimStart cs.reverse = cs.reverse := by
    apply trimStart_eq
    rw [List.head?_reverse]
    exact h.last
  rw [trim, trimStart_eq h.first, trimEnd, hrev, List.reverse_reverse]

theorem Flush.append {a b : List Char} (ha : Flush a) (m : List Char) (hb : Flush b) :
    Flush (a ++ m ++ b) := by
  obtain ⟨c, hc, hblank⟩ := ha.first
  obtain ⟨d, hd, hblank'⟩ := hb.last
  constructor
  · exact ⟨c, by rw [List.append_assoc, List.head?_append, hc, Option.some_or], hblank⟩
  · exact ⟨d, by rw [List.getLast?_append, hd, Option.some_or], hblank'⟩

/-- What ends without a blank does not end with a carriage return. -/
theorem Flush.isLine {cs : List Char} (h : Flush cs) (hn : '\n' ∉ cs) : IsLine cs := by
  refine ⟨hn, fun hlast => ?_⟩
  obtain ⟨c, hc, hblank⟩ := h.last
  obtain rfl : c = '\r' := by rwa [hlast, Option.some.injEq, eq_comm] at hc
  exact absurd hblank (by decide)

end TreeEdit.Text
