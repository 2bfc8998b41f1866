import TreeEdit.Proofs.Source.Printing
import TreeEdit.Text.Quoted

/-!
# Texts on a single line

A line of plain characters holds no line feed and no other control character, so nothing in it ends
it (`Printed`). A text between quotes is like that whatever it was before, and so is its excerpt
(`printed_excerpt`).

Numerals are told apart from what follows them by their digits: what was written is read back if no
digit comes after it (`decimal_append_inj`).
-/

namespace TreeEdit.Text

/-! ## Characters with a printed form -/

/-- All characters have a printed form. -/
def Printed (cs : List Char) : Prop :=
  ∀ c ∈ cs, isUnprintable c = false

/-- The character is one of the printed characters of ASCII. -/
def isAscii (c : Char) : Bool :=
  0x20 ≤ c.toNat && c.toNat < 0x7F

theorem isUnprintable_of_isAscii {c : Char} (h : isAscii c = true) : isUnprintable c = false := by
  rw [isAscii, Bool.and_eq_true, decide_eq_true_iff, decide_eq_true_iff] at h
  -- each range of the table is below these characters or above them
  have houtside : unprintableRanges.all (fun r => r.2 < 0x20 || 0x7F ≤ r.1) = true := by
    decide +kernel
  rw [isUnprintable, List.any_eq_false]
  intro r hr hin
  have hr := List.all_eq_true.mp houtside r hr
  simp only [Bool.or_eq_true, Bool.and_eq_true, decide_eq_true_iff] at hr hin
  omega

theorem printed_of_ascii {cs : List Char} (h : cs.all isAscii = true) : Printed cs :=
  fun c hc => isUnprintable_of_isAscii (List.all_eq_true.mp h c hc)

theorem Printed.append {cs ds : List Char} (h : Printed cs) (h' : Printed ds) :
    Printed (cs ++ ds) := fun c hc => (List.mem_append.mp hc).elim (h c) (h' c)

theorem Printed.flatMap {α : Type} {f : α → List Char} {l : List α}
    (h : ∀ a ∈ l, Printed (f a)) : Printed (l.flatMap f) := by
  intro c hc
  obtain ⟨a, ha, hca⟩ := List.mem_flatMap.mp hc
  exact h a ha c hca

/-- A line feed is no part of such a line, and neither is a carriage return. -/
theorem Printed.isLine {cs : List Char} (h : Printed cs) : IsLine cs where
  whole hmem := absurd (h '\n' hmem) (by decide)
  ending hlast := absurd (h '\r' (List.mem_of_getLast? hlast)) (by decide)

/-! ## Quoted texts -/

namespace Quoted

theorem isAscii_digitChar {d : Nat} (h : d < 16) : isAscii d.digitChar = true := by
  have hall : ∀ d < 16, isAscii d.digitChar = true := by decide
  exact hall d h

theorem printed_hexadecimal (n : Nat) : Printed (hexadecimal n) := by
  rw [hexadecimal]
  -- on the number that the digits before the last one stand for
  induction n using Nat.strongRecOn with
  | ind n ih =>
    by_cases hn : n < 16
    · rw [Nat.toDigits_of_lt_base hn]
      exact printed_of_ascii (by rw [List.all_cons, isAscii_digitChar hn, List.all_nil]; rfl)
    · have hle : 16 ≤ n := Nat.not_lt.mp hn
      rw [Nat.toDigits_of_base_le (by decide) hle]
      refine (ih (n / 16) (Nat.div_lt_self (by omega) (by decide))).append (printed_of_ascii ?_)
      rw [List.all_cons, isAscii_digitChar (Nat.mod_lt n (by decide)), List.all_nil]
      rfl

/-- Escapes are made of printed characters, and all others are escaped. -/
theorem printed_escape (c : Char) : Printed (escape c) := by
  unfold escape
  split
  iterate 6 exact printed_of_ascii (by decide)
  split
  · exact ((printed_of_ascii (by decide)).append (printed_hexadecimal _)).append
      (printed_of_ascii (by decide))
  · rename_i hc
    intro d hd
    rw [List.mem_singleton.mp hd]
    exact Bool.not_eq_true _ ▸ hc

theorem printed_quote (cs : List Char) : Printed (quote cs) := by
  have hquote : Printed ['"'] := printed_of_ascii (by decide)
  exact (hquote.append (.flatMap fun c _ => printed_escape c)).append hquote

theorem printed_excerpt (cs : List Char) : Printed (excerpt cs) := by
  unfold excerpt
  split
  · exact printed_quote cs
  · refine (printed_quote _).append fun c hc => ?_
    rw [List.mem_singleton.mp hc]
    decide +kernel

end Quoted

/-! ## Where a run of characters ends -/

/-- What comes next has not the property of the characters before it. -/
def Stops (p : Char → Bool) (cs : List Char) : Prop :=
  ∀ c, cs.head? = some c → p c = false

theorem stops_nil (p : Char → Bool) : Stops p [] := nofun

theorem stops_cons {p : Char → Bool} {c : Char} (h : p c = false) (cs : List Char) :
    Stops p (c :: cs) := by
  rintro _ ⟨⟩
  exact h

/-- A run of characters is as long as it can be, so there is one only. -/
theorem append_inj_of_stops {p : Char → Bool} {a a' r r' : List Char}
    (ha : ∀ c ∈ a, p c = true) (ha' : ∀ c ∈ a', p c = true) (hr : Stops p r) (hr' : Stops p r')
    (h : a ++ r = a' ++ r') : a = a' ∧ r = r' := by
  have htake {a r : List Char} (ha : ∀ c ∈ a, p c = true) (hr : Stops p r) :
      (a ++ r).takeWhile p = a := by
    have hnone : r.takeWhile p = [] := by
      cases r with
      | nil => rfl
      | cons c r => exact List.takeWhile_cons_of_neg (by rw [hr c rfl]; decide)
    rw [List.takeWhile_append_of_pos ha, hnone, List.append_nil]
  have hfirst : a = a' := by rw [← htake ha hr, h, htake ha' hr']
  subst hfirst
  exact ⟨rfl, List.append_cancel_left h⟩

namespace Numeral

variable {m n : Nat} {r r' : List Char}

theorem isAscii_of_isDigit {c : Char} (h : c.isDigit = true) : isAscii c = true := by
  rw [Char.isDigit, Bool.and_eq_true, decide_eq_true_iff, decide_eq_true_iff] at h
  have hlow : 48 ≤ c.toNat := h.1
  have hhigh : c.toNat ≤ 57 := h.2
  rw [isAscii, Bool.and_eq_true, decide_eq_true_iff, decide_eq_true_iff]
  omega

theorem isDigit_of_mem_zeroFilled {width : Nat} {c : Char}
    (h : c ∈ (zeroFilled width n).toList) : c.isDigit = true := by
  rw [zeroFilled, String.toList_ofList, List.mem_append] at h
  rcases h with h | h
  · rw [List.eq_of_mem_replicate h]
    rfl
  · exact Nat.isDigit_of_mem_toDigits (by omega) (by omega) h

theorem printed_decimal (n : Nat) : Printed (decimal n).toList :=
  fun _ hc => isUnprintable_of_isAscii (isAscii_of_isDigit (isDigit_of_mem_decimal hc))

theorem printed_zeroFilled (width n : Nat) : Printed (zeroFilled width n).toList :=
  fun _ hc => isUnprintable_of_isAscii (isAscii_of_isDigit (isDigit_of_mem_zeroFilled hc))

/-- Zeros in front do not count. -/
theorem value_zeroFilled (width n : Nat) : value (zeroFilled width n).toList = n := by
  have hzeros (k : Nat) : value (List.replicate k '0') = 0 := by
    induction k with
    | zero => rfl
    | succ k ih =>
      rw [value, List.replicate_succ, List.foldl_cons]
      exact ih
  have hdigits := value_decimal n
  rw [decimal, String.toList_ofList, value] at hdigits
  rw [zeroFilled, String.toList_ofList, value, List.foldl_append, ← value, hzeros]
  exact hdigits

theorem decimal_append_inj (hr : Stops Char.isDigit r) (hr' : Stops Char.isDigit r')
    (h : (decimal m).toList ++ r = (decimal n).toList ++ r') : m = n ∧ r = r' := by
  obtain ⟨hdigits, hrest⟩ := append_inj_of_stops (fun _ => isDigit_of_mem_decimal)
    (fun _ => isDigit_of_mem_decimal) hr hr' h
  refine ⟨?_, hrest⟩
  rw [← value_decimal m, hdigits, value_decimal]

theorem zeroFilled_append_inj {width : Nat} (hr : Stops Char.isDigit r)
    (hr' : Stops Char.isDigit r')
    (h : (zeroFilled width m).toList ++ r = (zeroFilled width n).toList ++ r') :
    m = n ∧ r = r' := by
  obtain ⟨hdigits, hrest⟩ := append_inj_of_stops (fun _ => isDigit_of_mem_zeroFilled)
    (fun _ => isDigit_of_mem_zeroFilled) hr hr' h
  refine ⟨?_, hrest⟩
  rw [← value_zeroFilled width m, hdigits, value_zeroFilled]

end Numeral

end TreeEdit.Text
