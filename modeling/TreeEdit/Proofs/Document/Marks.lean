import TreeEdit.Document.Markup
import TreeEdit.Proofs.Text.Printed

/-!
# Reading markup back

Markup is a sequence of marks: start tags with their attributes, end tags and single characters of
texts. Each mark can be told from the others however the markup goes on, because no escaped text has
an angle bracket and no escaped value has a quote. So markup has one reading as marks, and the marks
of trees can be compared instead of their markup (`Tree.markup_eq_iff_marks`).

That holds for tags and attribute names that are made of letters. Texts and values may be anything.
-/

namespace TreeEdit

open Text (Stops append_inj_of_stops stops_cons stops_nil)

/-! ## Codes -/

/-- What `f` writes for each `a` with `P` can be told apart whatever follows, and it begins with a
character that has the property `p`. -/
structure Code {α : Type} (f : α → List Char) (P : α → Prop) (p : Char → Bool) : Prop where
  starts : ∀ {a}, P a → ∃ c cs, f a = c :: cs ∧ p c = true
  inj : ∀ {a b r r'}, P a → P b → f a ++ r = f b ++ r' → a = b ∧ r = r'

/-- What has the property of a beginning does not end a sequence. -/
theorem Code.ne_of_stops {α : Type} {f : α → List Char} {P : α → Prop} {p : Char → Bool}
    (h : Code f P p) {a : α} (ha : P a) {r s : List Char} (hs : Stops p s) : f a ++ r ≠ s := by
  obtain ⟨c, cs, hf, hc⟩ := h.starts ha
  rintro rfl
  have hnot := hs c (by rw [hf]; rfl)
  rw [hc] at hnot
  cases hnot

/-- Sequences are told apart as well, up to a rest that does not begin like one of their parts. -/
theorem Code.flatMap_inj {α : Type} {f : α → List Char} {P : α → Prop} {p : Char → Bool}
    (h : Code f P p) {l l' : List α} {r r' : List Char} (hl : ∀ a ∈ l, P a) (hl' : ∀ a ∈ l', P a)
    (hr : Stops p r) (hr' : Stops p r') (heq : l.flatMap f ++ r = l'.flatMap f ++ r') :
    l = l' ∧ r = r' := by
  induction l generalizing l' with
  | nil =>
    cases l' with
    | nil => exact ⟨rfl, heq⟩
    | cons b l' =>
      rw [List.flatMap_cons, List.append_assoc] at heq
      exact absurd heq.symm (h.ne_of_stops (hl' b List.mem_cons_self) hr)
  | cons a l ih =>
    have ha := hl a List.mem_cons_self
    rw [List.flatMap_cons, List.append_assoc] at heq
    cases l' with
    | nil => exact absurd heq (h.ne_of_stops ha hr')
    | cons b l' =>
      rw [List.flatMap_cons, List.append_assoc] at heq
      obtain ⟨rfl, hlater⟩ := h.inj ha (hl' b List.mem_cons_self) heq
      obtain ⟨rfl, hrest⟩ := ih (fun a ha => hl a (List.mem_cons_of_mem _ ha))
        (fun a ha => hl' a (List.mem_cons_of_mem _ ha)) hlater
      exact ⟨rfl, hrest⟩

namespace Tree

/-! ## Escapes -/

/-- Reads one character off a text or a value as it is written. -/
def unescape : List Char → Option (Char × List Char)
  | '&' :: 'a' :: 'm' :: 'p' :: ';' :: r => some ('&', r)
  | '&' :: 'l' :: 't' :: ';' :: r => some ('<', r)
  | '&' :: 'g' :: 't' :: ';' :: r => some ('>', r)
  | '&' :: 'q' :: 'u' :: 'o' :: 't' :: ';' :: r => some ('"', r)
  | c :: r => some (c, r)
  | [] => none

theorem unescape_of_plain {c : Char} (hc : c ≠ '&') (r : List Char) :
    unescape (c :: r) = some (c, r) := by
  unfold unescape
  split <;> simp_all

theorem unescape_escapeText (c : Char) (r : List Char) :
    unescape (escapeText c ++ r) = some (c, r) := by
  unfold escapeText
  split
  · rfl
  · rfl
  · rfl
  · rename_i hamp _ _
    exact unescape_of_plain hamp r

theorem unescape_escapeValue (c : Char) (r : List Char) :
    unescape (escapeValue c ++ r) = some (c, r) := by
  unfold escapeValue
  split
  · rfl
  · exact unescape_escapeText c r

/-- An escaped character begins with an ampersand or with itself. -/
theorem head_escapeText (c : Char) :
    ∃ x cs, escapeText c = x :: cs ∧ x ≠ '<' ∧ (x = '&' ∨ x = c) := by
  unfold escapeText
  split
  · exact ⟨'&', _, rfl, by decide, .inl rfl⟩
  · exact ⟨'&', _, rfl, by decide, .inl rfl⟩
  · exact ⟨'&', _, rfl, by decide, .inl rfl⟩
  · rename_i hlt _
    exact ⟨c, [], rfl, hlt, .inr rfl⟩

theorem inj_of_unescape {f : Char → List Char} (hf : ∀ c r, unescape (f c ++ r) = some (c, r))
    {a b : Char} {r r' : List Char} (h : f a ++ r = f b ++ r') : a = b ∧ r = r' := by
  have hread : some (a, r) = some (b, r') := by rw [← hf a r, h, hf b r']
  exact Prod.mk.inj (Option.some.inj hread)

theorem code_escapeText : Code escapeText (fun _ => True) (· ≠ '<') where
  starts {a} _ := by
    obtain ⟨x, cs, h, hx, -⟩ := head_escapeText a
    exact ⟨x, cs, h, decide_eq_true hx⟩
  inj _ _ := inj_of_unescape unescape_escapeText

theorem code_escapeValue : Code escapeValue (fun _ => True) (· ≠ '"') where
  starts {a} _ := by
    unfold escapeValue
    split
    · exact ⟨'&', _, rfl, rfl⟩
    · rename_i hquote
      obtain ⟨x, cs, h, -, rfl | rfl⟩ := head_escapeText a
      · exact ⟨'&', cs, h, rfl⟩
      · exact ⟨x, cs, h, decide_eq_true hquote⟩
  inj _ _ := inj_of_unescape unescape_escapeValue

/-! ## Attributes -/

/-- The name is a word of ASCII letters. -/
def IsName (name : String) : Prop :=
  name ≠ "" ∧ ∀ c ∈ name.toList, c.isAlpha = true

instance : DecidablePred IsName := fun name =>
  decidable_of_iff (name ≠ "" ∧ name.toList.all Char.isAlpha = true) (by
    rw [IsName, List.all_eq_true])

theorem code_attributeMarkup : Code attributeMarkup (fun a => IsName a.1) (· = ' ') where
  starts {a} _ := ⟨' ', _, rfl, rfl⟩
  inj {a b r r'} ha hb h := by
    obtain ⟨name, value⟩ := a
    obtain ⟨name', value'⟩ := b
    simp only [attributeMarkup, List.cons_append, List.append_assoc, List.nil_append,
      List.cons.injEq, true_and] at h
    have hequals (cs : List Char) : Stops Char.isAlpha ('=' :: cs) := stops_cons rfl cs
    have hquote (cs : List Char) : Stops (fun c => decide (c ≠ '"')) ('"' :: cs) :=
      stops_cons rfl cs
    obtain ⟨hname, hrest⟩ := append_inj_of_stops ha.2 hb.2 (hequals _) (hequals _) h
    obtain ⟨hvalue, hrest⟩ := code_escapeValue.flatMap_inj (fun _ _ => trivial)
      (fun _ _ => trivial) (hquote r) (hquote r') (List.cons.inj (List.cons.inj hrest).2).2
    exact ⟨Prod.ext (String.toList_inj.mp hname) (String.toList_inj.mp hvalue),
      (List.cons.inj hrest).2⟩

/-! ## Marks -/

/-- One step of markup. -/
inductive Mark
  /-- A start tag. -/
  | start (tag : String) (attributes : List (String × String))
  /-- An end tag. -/
  | stop (tag : String)
  /-- A character of a text. -/
  | letter (c : Char)

namespace Mark

/-- A mark as it is written. -/
def write : Mark → List Char
  | start tag attributes => startTag tag attributes
  | stop tag => endTag tag
  | letter c => escapeText c

/-- The tag and the names of the attributes are words. -/
def Named : Mark → Prop
  | start tag attributes => IsName tag ∧ ∀ a ∈ attributes, IsName a.1
  | stop tag => IsName tag
  | letter _ => True

end Mark

/-- A tag ends where its attributes begin, or with its bracket. -/
theorem stops_attributes (attributes : List (String × String)) (r : List Char) :
    Stops Char.isAlpha (attributes.flatMap attributeMarkup ++ '>' :: r) := by
  cases attributes with
  | nil => exact stops_cons rfl _
  | cons a attributes => exact stops_cons rfl _

theorem startTag_inj {tag tag' : String} {attributes attributes' : List (String × String)}
    {r r' : List Char} (h : (Mark.start tag attributes).Named)
    (h' : (Mark.start tag' attributes').Named)
    (heq : startTag tag attributes ++ r = startTag tag' attributes' ++ r') :
    (tag = tag' ∧ attributes = attributes') ∧ r = r' := by
  simp only [startTag, List.cons_append, List.append_assoc, List.nil_append, List.cons.injEq,
    true_and] at heq
  obtain ⟨htag, hrest⟩ := append_inj_of_stops h.1.2 h'.1.2 (stops_attributes _ _)
    (stops_attributes _ _) heq
  have hbracket (cs : List Char) : Stops (fun c => decide (c = ' ')) ('>' :: cs) :=
    stops_cons rfl cs
  obtain ⟨hattributes, hrest⟩ :=
    code_attributeMarkup.flatMap_inj h.2 h'.2 (hbracket r) (hbracket r') hrest
  exact ⟨⟨String.toList_inj.mp htag, hattributes⟩, (List.cons.inj hrest).2⟩

theorem endTag_inj {tag tag' : String} {r r' : List Char} (h : IsName tag) (h' : IsName tag')
    (heq : endTag tag ++ r = endTag tag' ++ r') : tag = tag' ∧ r = r' := by
  simp only [endTag, List.cons_append, List.append_assoc, List.nil_append, List.cons.injEq,
    true_and] at heq
  have hbracket (cs : List Char) : Stops Char.isAlpha ('>' :: cs) := stops_cons rfl cs
  obtain ⟨htag, hrest⟩ := append_inj_of_stops h.2 h'.2 (hbracket r) (hbracket r') heq
  exact ⟨String.toList_inj.mp htag, (List.cons.inj hrest).2⟩

/-- A start tag goes on with a letter, an end tag does not. -/
theorem startTag_ne_endTag {tag tag' : String} {attributes : List (String × String)}
    {r r' : List Char} (h : IsName tag) : startTag tag attributes ++ r ≠ endTag tag' ++ r' := by
  intro heq
  obtain ⟨hne, hletters⟩ := h
  rw [startTag, endTag] at heq
  cases htag : tag.toList with
  | nil => exact hne (String.toList_inj.mp htag)
  | cons c cs =>
    rw [htag] at heq hletters
    have hc : c = '/' := (List.cons.inj (List.cons.inj heq).2).1
    have hletter := hletters c List.mem_cons_self
    rw [hc] at hletter
    cases hletter

/-- A tag begins with an angle bracket, and no escaped text does. -/
theorem escapeText_ne_tag {c : Char} {r cs : List Char} : escapeText c ++ r ≠ '<' :: cs :=
  code_escapeText.ne_of_stops trivial (stops_cons rfl cs)

theorem code_write : Code Mark.write Mark.Named (fun _ => true) where
  starts {a} _ := by
    cases a with
    | start tag attributes => exact ⟨'<', _, rfl, rfl⟩
    | stop tag => exact ⟨'<', _, rfl, rfl⟩
    | letter c =>
      obtain ⟨x, cs, h, -⟩ := head_escapeText c
      exact ⟨x, cs, h, rfl⟩
  inj {a b r r'} ha hb h := by
    cases a with
    | start tag attributes =>
      cases b with
      | start tag' attributes' =>
        obtain ⟨⟨rfl, rfl⟩, hrest⟩ := startTag_inj ha hb h
        exact ⟨rfl, hrest⟩
      | stop tag' => exact absurd h (startTag_ne_endTag ha.1)
      | letter c => exact absurd h.symm escapeText_ne_tag
    | stop tag =>
      cases b with
      | start tag' attributes => exact absurd h.symm (startTag_ne_endTag hb.1)
      | stop tag' =>
        obtain ⟨rfl, hrest⟩ := endTag_inj ha hb h
        exact ⟨rfl, hrest⟩
      | letter c => exact absurd h.symm escapeText_ne_tag
    | letter c =>
      cases b with
      | start tag attributes => exact absurd h escapeText_ne_tag
      | stop tag => exact absurd h escapeText_ne_tag
      | letter c' =>
        obtain ⟨rfl, hrest⟩ := code_escapeText.inj trivial trivial h
        exact ⟨rfl, hrest⟩

/-! ## The marks of trees -/

mutual

/-- The marks of a tree, in order. -/
def marks : Tree → List Mark
  | element tag attributes children => .start tag attributes :: marksAll children ++ [.stop tag]
  | text t => t.toList.map .letter

/-- The marks of trees, one after another. -/
def marksAll : List Tree → List Mark
  | [] => []
  | t :: ts => marks t ++ marksAll ts

end

mutual

theorem markup_eq_write (t : Tree) : t.markup = t.marks.flatMap Mark.write := by
  cases t with
  | element tag attributes children =>
    rw [markup, marks, List.cons_append, List.flatMap_cons, List.flatMap_append,
      List.flatMap_singleton, ← markupAll_eq_write children, ← List.append_assoc]
    rfl
  | text t =>
    rw [markup, marks, List.flatMap_map]
    rfl

theorem markupAll_eq_write (ts : List Tree) : markupAll ts = (marksAll ts).flatMap Mark.write := by
  cases ts with
  | nil => rfl
  | cons t ts =>
    rw [markupAll, marksAll, List.flatMap_append, markup_eq_write t, markupAll_eq_write ts]

end

/-- Markup has one reading as marks. -/
theorem markup_eq_iff_marks {t t' : Tree} (h : ∀ m ∈ t.marks, m.Named)
    (h' : ∀ m ∈ t'.marks, m.Named) : t.markup = t'.markup ↔ t.marks = t'.marks := by
  rw [markup_eq_write, markup_eq_write]
  refine ⟨fun heq => ?_, fun heq => by rw [heq]⟩
  exact (code_write.flatMap_inj h h' (stops_nil _) (stops_nil _)
    (congrArg (fun cs => cs ++ ([] : List Char)) heq)).1

end Tree

end TreeEdit
