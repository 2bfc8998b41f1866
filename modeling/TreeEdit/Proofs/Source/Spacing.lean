import Mathlib.Logic.Relation
import TreeEdit.Proofs.Source.Scanning

/-!
# The layout of a text

How a text is laid out makes no difference to its assembly (`layout_irrelevant`): blanks around
what stands on a line, the width of a gap between tokens, comments, carriage returns before line
feeds. A line that says nothing only counts. Inside of a literal, though, blanks and semicolons
stand for themselves.
-/

namespace TreeEdit.Source

open Place (outside)
open Text (Blanks EndsLine StartsLine isBlank segments trim trimEnd trimStart)

variable {l l' w v x y : List Char}

/-! ## Blanks on a line -/

/-- Only the blanks at the end of a line have to be cut off before it is read. -/
theorem reading_eq (l : List Char) : reading l = tokens (trimEnd l) := by
  obtain ⟨w, hw, hl⟩ := Text.exists_eq_append_trimStart l
  rw [reading, trim]
  conv_rhs => rw [hl]
  rcases Text.trimEnd_append_cases w (trimStart l) with ⟨hnil, h⟩ | ⟨-, h⟩
  · rw [h, hnil, Text.trimEnd_eq_nil_iff.mpr hw]
  · rw [h, tokens_blanks hw]

theorem reading_blanks (hw : Blanks w) : reading w = .ok [] := by
  rw [reading_eq, Text.trimEnd_eq_nil_iff.mpr hw, tokens_nil]

/-- A word does not go on in blanks. -/
theorem not_inWord_of_head?_blanks {c : Char} (hw : Blanks w) (hne : w ≠ [])
    (h : (w ++ l).head? = some c) : inWord c = false := by
  cases w with
  | nil => exact absurd rfl hne
  | cons d w =>
    cases h
    simp [inWord, hw c List.mem_cons_self]

/-- How wide a gap outside of literals is makes no difference. -/
theorem reading_between (hx : (outside.after x).Clear) (hw : Blanks w) (hne : w ≠ [])
    (hv : Blanks v) (hne' : v ≠ []) (y : List Char) :
    reading (x ++ (w ++ y)) = reading (x ++ (v ++ y)) := by
  obtain ⟨r, hr⟩ : ∃ r, ∀ w, Blanks w → w ≠ [] → reading (x ++ (w ++ y)) = r := by
    by_cases hy : Blanks y
    · -- the gap stands at the end of the line and is cut off
      refine ⟨reading x, fun w hw _ => ?_⟩
      have hgap : Blanks (w ++ y) := List.forall_mem_append.mpr ⟨hw, hy⟩
      rw [reading_eq, Text.trimEnd_append x hgap, reading_eq]
    · refine ⟨tokens x >>= fun ts => ((outside.after x).tokens (trimEnd y)).map (ts ++ ·),
        fun w hw hne => ?_⟩
      have hkept (l : List Char) : trimEnd (l ++ y) = l ++ trimEnd y :=
        ((Text.trimEnd_append_cases l y).resolve_left
          fun h => hy (Text.trimEnd_eq_nil_iff.mp h.1)).2
      rw [reading_eq, ← List.append_assoc, hkept, List.append_assoc,
        tokens_append hx fun _ _ => not_inWord_of_head?_blanks hw hne]
      simp only [Place.tokens_blanks _ hw]
  rw [hr w hw hne, hr v hv hne']

/-! ## Comments -/

/-- A comment after a line that can be read adds nothing to it. -/
theorem reading_comment {ts : List Token} (h : reading l = .ok ts) (t : List Char) :
    reading (l ++ ';' :: t) = .ok ts := by
  obtain ⟨w, hw, hl⟩ := Text.exists_eq_trimEnd_append l
  rw [reading_eq] at h ⊢
  rw [Text.trimEnd_append_cons (by decide), hl, List.append_assoc]
  -- the blanks `w` that were cut off before stand in front of the comment now
  generalize trimEnd l = m at h ⊢
  have hstop : ∀ c, (w ++ ';' :: trimEnd t).head? = some c → inWord c = false := by
    cases w with
    | nil =>
      rintro c hc
      cases hc
      decide
    | cons d w => exact fun _ => not_inWord_of_head?_blanks hw (List.cons_ne_nil d w)
  rw [tokens_append (clear_of_tokens_ok h) fun _ => hstop, h, Place.tokens_blanks _ hw,
    Place.tokens_comment]
  exact congrArg Except.ok (List.append_nil ts)

/-- A line that is blank but for a comment. -/
inductive Silent : List Char → Prop
  | blank {w : List Char} : Blanks w → Silent w
  | comment {w : List Char} : Blanks w → ∀ t, Silent (w ++ ';' :: t)

theorem Silent.reading_eq (h : Silent l) : reading l = .ok [] := by
  cases h with
  | blank hw => exact reading_blanks hw
  | comment hw t => exact reading_comment (reading_blanks hw) t

/-! ## Literals -/

/-- In a literal, blanks and semicolons stand for themselves. -/
theorem reading_literal {front s s' : List Char} (hfront : outside.after front = outside)
    (hx : Spells x s) (hw : ∀ c ∈ w, isBlank c = true ∨ c = ';') (hy : Spells y s')
    (back : List Char) :
    reading (front ++ '"' :: (x ++ (w ++ (y ++ '"' :: back)))) = tokens front >>= fun ts =>
      (reading back).map fun us => ts ++ .text (String.ofList (s ++ (w ++ s'))) :: us := by
  have hspells := hx.append ((spells_verbatim hw).append hy)
  have hline : front ++ '"' :: (x ++ (w ++ (y ++ '"' :: back)))
      = (front ++ '"' :: (x ++ (w ++ y))) ++ '"' :: back := by
    simp only [List.append_assoc, List.cons_append]
  have hcut : trimEnd (front ++ '"' :: (x ++ (w ++ (y ++ '"' :: back))))
      = front ++ '"' :: (x ++ (w ++ y) ++ '"' :: trimEnd back) := by
    rw [hline, Text.trimEnd_append_cons (by decide), List.append_assoc, List.cons_append]
  have hstop : ∀ c, (('"' : Char) :: (x ++ (w ++ y) ++ '"' :: trimEnd back)).head? = some c →
      inWord c = false := by
    rintro c hc
    cases hc
    decide
  rw [reading_eq, hcut, tokens_append (.inl hfront) fun _ => hstop, hfront, reading_eq back]
  simp only [Place.tokens]
  rw [tokens_quote, readLiteral_of_spells hspells]
  dsimp only
  cases tokens front with
  | error p => rfl
  | ok ts => cases tokens (trimEnd back) <;> rfl

/-! ## Edits of a line -/

/-- What can be done to the layout of a line. -/
inductive LineEdit : List Char → List Char → Prop
  /-- Other blanks around what stands on the line. -/
  | around {w v w' v' : List Char} (l : List Char) : Blanks w → Blanks v → Blanks w' → Blanks v' →
    LineEdit (w ++ (l ++ v)) (w' ++ (l ++ v'))
  /-- Another gap outside of literals. -/
  | between {x w v : List Char} (y : List Char) : (outside.after x).Clear → Blanks w → w ≠ [] →
    Blanks v → v ≠ [] → LineEdit (x ++ (w ++ y)) (x ++ (v ++ y))
  /-- A comment after a line that can be read, before or in place of the blanks at its end. -/
  | comment {l w : List Char} {ts : List Token} (t : List Char) : tokens (trim l) = .ok ts →
    Blanks w → LineEdit (l ++ w) (l ++ ';' :: t)

theorem LineEdit.reading_eq (h : LineEdit l l') : reading l' = reading l := by
  cases h with
  | around l hw hv hw' hv' =>
    rw [reading, reading, Text.trim_surround hw' l hv', Text.trim_surround hw l hv]
  | between y hx hw hne hv hne' => exact (reading_between hx hw hne hv hne' y).symm
  | comment t hts hw =>
    rw [reading_comment hts t, reading, Text.trim_append _ hw, hts]

/-! ## Edits of a text -/

/-- What can be done to the layout of a text without new lines. -/
inductive Edit : List Char → List Char → Prop
  /-- The layout of one line. -/
  | line {before l l' after : List Char} : StartsLine before → EndsLine after → '\n' ∉ l →
    '\n' ∉ l' → LineEdit l l' → Edit (before ++ (l ++ after)) (before ++ (l' ++ after))
  /-- A carriage return before a line feed. -/
  | carriageReturn (p q : List Char) : Edit (p ++ '\n' :: q) (p ++ '\r' :: '\n' :: q)

theorem Edit.readings_eq {cs cs' : List Char} (h : Edit cs cs') :
    (segments cs').map reading = (segments cs).map reading := by
  cases h with
  | line hbefore hafter hl hl' hedit =>
    obtain ⟨A, B, hseg⟩ := Text.exists_segments_around hbefore hafter
    rw [hseg _ hl, hseg _ hl', List.map_append, List.map_append, List.map_cons, List.map_cons,
      hedit.reading_eq]
  | carriageReturn p q =>
    obtain ⟨A, l, hseg⟩ := Text.exists_segments_append p
    have hp : segments p = A ++ [l] := by
      have h := hseg [] (List.not_mem_nil)
      rwa [List.append_nil, List.append_nil] at h
    have hcut : p ++ '\r' :: '\n' :: q = (p ++ ['\r']) ++ '\n' :: q := by
      rw [List.append_assoc, List.singleton_append]
    rw [hcut, Text.segments_append_newline, Text.segments_append_newline, hp,
      hseg ['\r'] (by decide)]
    simp only [List.map_append, List.map_cons, List.map_nil, reading_of_ended (.returned l)]

/-- A new line that says nothing. -/
inductive Insertion : List Char → List Char → Prop
  /-- Before a line. -/
  | before {p l : List Char} (q : List Char) : StartsLine p → '\n' ∉ l → Silent l →
    Insertion (p ++ q) (p ++ (l ++ '\n' :: q))
  /-- After the last line. -/
  | last {l : List Char} (p : List Char) : '\n' ∉ l → Silent l → Insertion p (p ++ '\n' :: l)

theorem Insertion.exists_readings {cs cs' : List Char} (h : Insertion cs cs') :
    ∃ rs rs', (segments cs).map reading = rs ++ rs' ∧
      (segments cs').map reading = rs ++ .ok [] :: rs' := by
  cases h with
  | before q hp hl hsilent =>
    obtain ⟨A, hseg⟩ := hp.exists_segments
    refine ⟨A.map reading, (segments q).map reading, ?_, ?_⟩
    · rw [hseg, List.map_append]
    · rw [hseg, Text.segments_append_newline, Text.segments_of_line hl, List.map_append,
        List.singleton_append, List.map_cons, hsilent.reading_eq]
  | last _ hl hsilent =>
    refine ⟨(segments cs).map reading, [], (List.append_nil _).symm, ?_⟩
    rw [Text.segments_append_newline, Text.segments_of_line hl, List.map_append, List.map_singleton,
      hsilent.reading_eq]

/-! ## Assembly -/

/-- Two assemblies end alike, but for the number of the line that is wrong. -/
inductive SameButLine :
    EStateM.Result Fault Builder Unit → EStateM.Result Fault Builder Unit → Prop
  | ok (b : Builder) : SameButLine (.ok () b) (.ok () b)
  | error (line line' : UInt32) (p : SourceProblem) (b : Builder) :
    SameButLine (.error (.source line p) b) (.error (.source line' p) b)

theorem SameButLine.trans {r r' r'' : EStateM.Result Fault Builder Unit} (h : SameButLine r r')
    (h' : SameButLine r' r'') : SameButLine r r'' := by
  cases h with
  | ok => exact h'
  | error line =>
    cases h' with
    | error _ line'' => exact .error line line'' _ _

/-- A line that says nothing only counts. -/
theorem sameButLine_insert (rs rs' : List Reading) (b : Builder) :
    SameButLine ((effects 0 (rs ++ rs')).adaptExcept faultOf b)
      ((effects 0 (rs ++ .ok [] :: rs')).adaptExcept faultOf b) := by
  rw [effects_append, effects_append, effects_silent, effects_add _ 1]
  cases h : effects 0 rs b with
  | error x b₁ =>
    rw [Step.adaptExcept_error (Step.bind_error h), Step.adaptExcept_error (Step.bind_error h)]
    exact .error _ _ _ _
  | ok _ b₁ =>
    -- the lines after the new one are assembled into the same builder, with a higher number
    cases h' : effects (0 + rs.length) rs' b₁ with
    | ok _ b₂ =>
      rw [Step.adaptExcept_ok ((Step.bind_ok h).trans h'),
        Step.adaptExcept_ok ((Step.bind_ok h).trans (Step.adaptExcept_ok h' _))]
      exact .ok b₂
    | error x b₂ =>
      rw [Step.adaptExcept_error ((Step.bind_ok h).trans h'),
        Step.adaptExcept_error ((Step.bind_ok h).trans (Step.adaptExcept_error h' _))]
      exact .error _ _ _ _

variable {source source' : String}

theorem Edit.assembleInto_eq (h : Edit source.toList source'.toList) :
    assembleInto source' = assembleInto source := by
  rw [Source.assembleInto_eq, Source.assembleInto_eq, readings, readings, h.readings_eq]

theorem Insertion.sameButLine (h : Insertion source.toList source'.toList) (b : Builder) :
    SameButLine (assembleInto source b) (assembleInto source' b) := by
  obtain ⟨rs, rs', hrs, hrs'⟩ := h.exists_readings
  rw [assembleInto_eq, assembleInto_eq, readings, readings, hrs, hrs']
  exact sameButLine_insert rs rs' b

theorem sameButLine_self (source : String) (b : Builder) :
    SameButLine (assembleInto source b) (assembleInto source b) := by
  rw [assembleInto_eq]
  cases h : effects 0 (readings source) b with
  | ok _ b₁ =>
    rw [Step.adaptExcept_ok h]
    exact .ok b₁
  | error x b₁ =>
    rw [Step.adaptExcept_error h]
    exact .error _ _ _ _

/-- The layout of a text makes no difference to its assembly: edits of the layout leave the builder
and the fault as they are, and new lines that say nothing change no more than the line number of the
fault, however many are made of either. In a literal blanks and semicolons stand for themselves. -/
theorem layout_irrelevant :
    (∀ source source' : String, Edit source.toList source'.toList →
      assembleInto source' = assembleInto source) ∧
    (∀ source source' : String,
      Relation.ReflTransGen (fun s s' : String =>
        Edit s.toList s'.toList ∨ Insertion s.toList s'.toList) source source' →
      ∀ b, SameButLine (assembleInto source b) (assembleInto source' b)) ∧
    ∀ front x s w y s' back : List Char, outside.after front = outside → Spells x s → Spells y s' →
      (∀ c ∈ w, isBlank c = true ∨ c = ';') →
      reading (front ++ '"' :: (x ++ (w ++ (y ++ '"' :: back)))) = tokens front >>= fun ts =>
        (reading back).map fun us => ts ++ .text (String.ofList (s ++ (w ++ s'))) :: us := by
  refine ⟨fun _ _ h => h.assembleInto_eq, fun source source' h b => ?_,
    fun front x s w y s' back hfront hx hy hw => reading_literal hfront hx hw hy back⟩
  induction h with
  | refl => exact sameButLine_self source b
  | tail _ hstep ih =>
    rcases hstep with hedit | hinsert
    · rw [hedit.assembleInto_eq]
      exact ih
    · exact ih.trans (hinsert.sameButLine b)

/-- A comment after an instruction, and an empty line before it. -/
theorem layout_irrelevant_pop :
    assembleInto "pop;" = assembleInto "pop" ∧
      SameButLine (assembleInto "pop" .empty) (assembleInto "\npop;" .empty) ∧
        reading ['"', ';', ' ', '"'] = .ok [.text "; "] := by
  have hpop : tokens (trim ['p', 'o', 'p']) = .ok [.word "pop"] := by
    show tokens ['p', 'o', 'p'] = _
    rw [tokens_cons, if_neg (by decide), if_neg (by decide), if_neg (by decide)]
    exact congrArg (Except.map _) tokens_nil
  have hnone : Blanks [] := fun _ h => nomatch h
  have hline : LineEdit ['p', 'o', 'p'] ['p', 'o', 'p', ';'] := .comment [] hpop hnone
  have hedit : Edit "pop".toList "pop;".toList :=
    .line .first .last (by decide) (by decide) hline
  have hinsert : Insertion "pop;".toList "\npop;".toList :=
    .before (l := []) _ .first (by decide) (.blank hnone)
  obtain ⟨heq, hsame, hliteral⟩ := layout_irrelevant
  refine ⟨heq _ _ hedit,
    hsame _ _ (.tail (.single (.inl hedit)) (.inr hinsert)) .empty, ?_⟩
  have hverbatim : ∀ c ∈ [';', ' '], isBlank c = true ∨ c = ';' :=
    List.forall_mem_cons.mpr ⟨.inr rfl, List.forall_mem_singleton.mpr (.inl rfl)⟩
  refine (hliteral [] [] [] [';', ' '] [] [] [] rfl .nil .nil hverbatim).trans ?_
  rw [tokens_nil, reading_blanks hnone]
  rfl

end TreeEdit.Source
