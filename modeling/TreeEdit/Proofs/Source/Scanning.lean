import TreeEdit.Proofs.Source.Reading

/-!
# Where a line can be cut

A scan of a line from its start stands outside of literals, inside of one, right after a backslash
in one, or in a comment (`Place`). Outside, the tokens of what follows are read as if the line
started there; in a comment they no longer matter (`tokens_append`).
-/

namespace TreeEdit.Source

open Text (Blanks isBlank)

/-- Blanks before a token make no difference. -/
theorem tokens_blanks {w : List Char} (hw : Blanks w) (l : List Char) :
    tokens (w ++ l) = tokens l := by
  induction w with
  | nil => rfl
  | cons c w ih =>
    rw [List.cons_append, tokens_blank (hw c List.mem_cons_self),
      ih fun d hd => hw d (List.mem_cons_of_mem _ hd)]

/-- Where a scan of a line stands. -/
inductive Place
  /-- Between tokens or in a word. -/
  | outside
  /-- In a literal. -/
  | inside
  /-- In a literal, right after the backslash of an escape. -/
  | escape
  /-- In a comment, which takes the rest of the line. -/
  | comment
  deriving DecidableEq

namespace Place

/-- Where a scan stands after one more character. -/
def next : Place → Char → Place
  | outside, c => if c = '"' then inside else if c = ';' then comment else outside
  | inside, c => if c = '"' then outside else if c = '\\' then escape else inside
  | escape, _ => inside
  | comment, _ => comment

/-- Where a scan that stands at `p` has come to after the characters `cs`. -/
def after (p : Place) (cs : List Char) : Place :=
  cs.foldl next p

@[simp] theorem after_nil (p : Place) : p.after [] = p := rfl

@[simp] theorem after_cons (p : Place) (c : Char) (cs : List Char) :
    p.after (c :: cs) = (p.next c).after cs := rfl

@[simp] theorem after_append (p : Place) (cs cs' : List Char) :
    p.after (cs ++ cs') = (p.after cs).after cs' :=
  List.foldl_append

@[simp] theorem after_comment (cs : List Char) : comment.after cs = comment := by
  induction cs with
  | nil => rfl
  | cons c cs ih => exact ih

/-- No literal is open. -/
def Clear (p : Place) : Prop :=
  p = outside ∨ p = comment

/-- A character outside of literals that opens none and starts no comment changes nothing. -/
theorem next_outside {c : Char} (hq : c ≠ '"') (hs : c ≠ ';') : outside.next c = outside := by
  simp [next, hq, hs]

theorem next_inside {c : Char} (hq : c ≠ '"') (hb : c ≠ '\\') : inside.next c = inside := by
  simp [next, hq, hb]

theorem next_blank {c : Char} (hc : isBlank c = true) : outside.next c = outside := by
  refine next_outside ?_ ?_ <;> rintro rfl <;> cases hc

theorem after_outside_of_inWord {cs : List Char} (h : ∀ c ∈ cs, inWord c = true) :
    outside.after cs = outside := by
  induction cs with
  | nil => rfl
  | cons c cs ih =>
    obtain ⟨-, hq, hs⟩ := inWord_eq_true_iff.mp (h c List.mem_cons_self)
    rw [after_cons, next_outside hq hs, ih fun d hd => h d (List.mem_cons_of_mem _ hd)]

/-- The tokens of what follows a scan that stands at a clear place. -/
def tokens : Place → List Char → Reading
  | comment, _ => .ok []
  | _, r => Source.tokens r

theorem tokens_blanks (p : Place) {w : List Char} (hw : Blanks w) (l : List Char) :
    p.tokens (w ++ l) = p.tokens l := by
  cases p with
  | comment => rfl
  | _ => exact Source.tokens_blanks hw l

/-- A comment has no tokens. -/
theorem tokens_comment (p : Place) (l : List Char) : p.tokens (';' :: l) = .ok [] := by
  cases p with
  | comment => rfl
  | _ =>
    show Source.tokens (';' :: l) = _
    rw [tokens_cons, if_neg (by decide), if_pos rfl]

end Place

open Place (outside inside Clear)

/-! ## Literals -/

/-- A literal that has been read, with what follows it, or why it cannot be read. -/
abbrev LiteralReading := Except SourceProblem (List Char × List Char)

/-- What is read of a literal, from a text after which a scan stands at `p`, and from that text with
`r` after it. -/
inductive ReadsOn (r : List Char) (p : Place) : LiteralReading → LiteralReading → Prop
  /-- The literal has been closed. -/
  | closed (s rest : List Char) : p = outside.after rest →
    ReadsOn r p (.ok (s, rest)) (.ok (s, rest ++ r))
  /-- An escape in the literal is wrong. -/
  | wrong (e : SourceProblem) : ReadsOn r p (.error e) (.error e)
  /-- The literal is still open. -/
  | still (y : LiteralReading) : ¬p.Clear → ReadsOn r p (.error .unterminatedText) y

theorem ReadsOn.map {r : List Char} {p : Place} {x y : LiteralReading} (h : ReadsOn r p x y)
    (d : Char) :
    ReadsOn r p (x.map fun (s, rest) => (d :: s, rest))
      (y.map fun (s, rest) => (d :: s, rest)) := by
  cases h with
  | closed s rest hp => exact .closed (d :: s) rest hp
  | wrong e => exact .wrong e
  | still y hp => exact .still _ hp

/-- What follows makes no difference to a literal that is closed before. -/
theorem readLiteral_readsOn (l r : List Char) :
    ReadsOn r (inside.after l) (readLiteral l) (readLiteral (l ++ r)) := by
  fun_induction readLiteral l with
  | case1 => exact .still _ (by simp [Clear])
  | case2 l =>
    rw [List.cons_append, readLiteral]
    exact .closed [] l rfl
  | case3 => exact .still _ (by simp [Clear, Place.next])
  | case4 c l d hd ih =>
    rw [List.cons_append, List.cons_append, readLiteral, hd]
    exact ih.map d
  | case5 c l hc =>
    rw [List.cons_append, List.cons_append, readLiteral, hc]
    exact .wrong _
  | case6 c l hq hb hb' ih =>
    have hplain : c ≠ '\\' := by
      rintro rfl
      cases l with
      | nil => exact hb rfl rfl
      | cons d l => exact hb' d l rfl rfl
    rw [List.cons_append, readLiteral_plain hq hplain, Place.after_cons,
      Place.next_inside hq hplain]
    exact ih.map c

/-- A literal that is closed ends where it ends, whatever follows. -/
theorem readLiteral_append_of_ok {l s rest : List Char} (h : readLiteral l = .ok (s, rest))
    (r : List Char) :
    readLiteral (l ++ r) = .ok (s, rest ++ r) ∧ inside.after l = outside.after rest := by
  have hreads := readLiteral_readsOn l r
  generalize readLiteral (l ++ r) = y at hreads ⊢
  rw [h] at hreads
  cases hreads with
  | closed _ _ hp => exact ⟨rfl, hp⟩

/-- What is wrong with a literal stays so, unless only its end was missing. -/
theorem readLiteral_append_of_error {l : List Char} {p : SourceProblem}
    (h : readLiteral l = .error p) (hclear : (inside.after l).Clear) (r : List Char) :
    readLiteral (l ++ r) = .error p := by
  have hreads := readLiteral_readsOn l r
  generalize readLiteral (l ++ r) = y at hreads ⊢
  rw [h] at hreads
  cases hreads with
  | wrong => rfl
  | still _ hopen => exact absurd hclear hopen

/-- Blanks and semicolons stand for themselves. -/
theorem spells_verbatim {w : List Char} (h : ∀ c ∈ w, isBlank c = true ∨ c = ';') : Spells w w := by
  induction w with
  | nil => exact .nil
  | cons c w ih =>
    refine .plain ?_ ?_ (ih fun d hd => h d (List.mem_cons_of_mem _ hd))
    all_goals
      rintro rfl
      rcases h _ List.mem_cons_self with hc | hc <;> exact absurd hc (by decide)

/-! ## Lines -/

/-- What is read of the rest comes after a first token and the others. -/
theorem bind_map_cons (x y : Reading) (t : Token) :
    (x >>= fun ts => y.map (ts ++ ·)).map (t :: ·)
      = x.map (t :: ·) >>= fun ts => y.map (ts ++ ·) := by
  cases x with
  | error p => rfl
  | ok ts => cases y <;> rfl

/-- A word ends where it ended, unless it goes on in what follows. -/
theorem span_inWord_append {l r : List Char}
    (h : l.dropWhile inWord = [] → ∀ c, r.head? = some c → inWord c = false) :
    (l ++ r).takeWhile inWord = l.takeWhile inWord ∧
      (l ++ r).dropWhile inWord = l.dropWhile inWord ++ r := by
  induction l with
  | nil =>
    cases r with
    | nil => exact ⟨rfl, rfl⟩
    | cons d r =>
      have hd := h rfl d rfl
      simp [hd]
  | cons c l ih =>
    cases hc : inWord c with
    | true =>
      simp only [List.dropWhile_cons, hc, if_true] at h
      simpa [hc] using ih h
    | false => simp [hc]

/-- A word leaves a scan where it is. -/
theorem after_word {c : Char} (hq : c ≠ '"') (hs : c ≠ ';') (l : List Char) :
    outside.after (c :: l) = outside.after (l.dropWhile inWord) := by
  have hword : outside.after (l.takeWhile inWord) = outside :=
    Place.after_outside_of_inWord fun _ => List.mem_takeWhile_imp
  rw [Place.after_cons, Place.next_outside hq hs]
  conv_lhs => rw [← List.takeWhile_append_dropWhile (p := inWord) (l := l)]
  rw [Place.after_append, hword]

/-- A line is read up to any place where no literal is open, and on from there. -/
theorem tokens_append {l r : List Char} (hl : (outside.after l).Clear)
    (hr : outside.after l = outside → ∀ c, r.head? = some c → inWord c = false) :
    tokens (l ++ r) = tokens l >>= fun ts => ((outside.after l).tokens r).map (ts ++ ·) := by
  -- along the tokens of `l`: only a word at its end could run on into `r`, which `hr` rules out
  fun_induction tokens l with
  | case1 =>
    show tokens r = (tokens r).map ([] ++ ·)
    cases tokens r <;> rfl
  | case2 c l hc ih =>
    rw [Place.after_cons, Place.next_blank hc] at hl hr ⊢
    rw [List.cons_append, tokens_blank hc, ih hl hr]
  | case3 l hc =>
    have hcomment : outside.after (';' :: l) = .comment := Place.after_comment l
    rw [hcomment, List.cons_append, tokens_cons, if_neg hc, if_pos rfl]
    rfl
  | case4 l p hp =>
    -- no literal is open after `l`, so its end is not what is missing
    rw [List.cons_append, tokens_quote, readLiteral_append_of_error hp hl]
    rfl
  | case5 l s rest hs _ _ ih =>
    obtain ⟨happend, hafter⟩ := readLiteral_append_of_ok hs r
    replace hafter : outside.after ('"' :: l) = outside.after rest := hafter
    rw [hafter] at hl hr ⊢
    rw [List.cons_append, tokens_quote, happend]
    dsimp only
    rw [ih hl hr, bind_map_cons]
  | case6 c l hblank hsemi hquote ih =>
    rw [after_word hquote hsemi] at hl hr ⊢
    obtain ⟨htake, hdrop⟩ := span_inWord_append (l := l) (r := r) fun hnil =>
      hr (by rw [hnil, Place.after_nil])
    rw [List.cons_append, tokens_cons, if_neg hblank, if_neg hsemi, if_neg hquote, htake, hdrop,
      ih hl hr, bind_map_cons]

/-- A line that has tokens leaves no literal open. -/
theorem clear_of_tokens_ok {l : List Char} {ts : List Token} (h : tokens l = .ok ts) :
    (outside.after l).Clear := by
  have hrest {x : Reading} {t : Token} {us : List Token} (h : x.map (t :: ·) = .ok us) :
      ∃ ts', x = .ok ts' := by
    cases x with
    | error p => cases h
    | ok ts' => exact ⟨ts', rfl⟩
  fun_induction tokens l generalizing ts with
  | case1 => exact .inl rfl
  | case2 c l hc ih =>
    rw [Place.after_cons, Place.next_blank hc]
    exact ih h
  | case3 l hc => exact .inr (Place.after_comment l)
  | case4 l p hp => cases h
  | case5 l s rest hs _ _ ih =>
    obtain ⟨ts', hts⟩ := hrest h
    rw [Place.after_cons]
    exact (readLiteral_append_of_ok hs []).2 ▸ ih hts
  | case6 c l hblank hsemi hquote ih =>
    obtain ⟨ts', hts⟩ := hrest h
    rw [after_word hquote hsemi]
    exact ih hts

end TreeEdit.Source
