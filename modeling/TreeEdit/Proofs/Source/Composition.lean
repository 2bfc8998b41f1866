import Mathlib.Algebra.Ring.Nat
import Mathlib.Order.Bounds.Defs
import TreeEdit.Proofs.Source.Reading

/-!
# Assembling texts piece by piece

A text can be cut at any line feed and its parts assembled one after another; only the line numbers
of the later part are counted on. An assembly that fails does so at the first line that is wrong.
The builder then holds what the lines before that one have emitted, and nothing of the line itself,
unless the line has run out of string ids after one that it still got (`assembly_by_lines`).
-/

namespace TreeEdit

open Text (firstLines lines trim)

namespace Source

variable {b b' b₁ : Builder}

/-- What a failing line leaves. -/
theorem kept_of_effect_error {r : Reading} {p : SourceProblem} (h : effect r b = .error p b') :
    b' = b ∨ p = .idsExhausted ∧ ∃ ts name value id, r = .ok ts ∧
      statementOfTokens ts = .ok (.setAttribute name value) ∧
        Builder.addString name id b = .ok () b' := by
  cases r with
  | error q =>
    cases h
    exact .inl rfl
  | ok ts =>
    have hts : ts ≠ [] := by
      rintro rfl
      cases h
    rw [effect_ok hts] at h
    cases hs : statementOfTokens ts with
    | error q =>
      rw [hs] at h
      cases h
      exact .inl rfl
    | ok s =>
      rw [hs] at h
      replace h : emission s b = .error p b' := h
      obtain ⟨f, hx, rfl⟩ := Step.adaptExcept_eq_error_iff.mp h
      rcases ((Step.ends_iff.mp (s.emit_ends_kept b)).2 f b' hx).2 with
        rfl | ⟨name, value, id, rfl, hadd⟩
      · exact .inl rfl
      · exact .inr ⟨rfl, ts, name, value, id, rfl, hs, hadd⟩

/-! ## Texts and their readings -/

variable {source s₁ s₂ : String} {k : Nat} {p : SourceProblem} {e : Fault}

theorem assembleInto_eq_ok_iff :
    assembleInto source b = .ok () b' ↔ effects 0 (readings source) b = .ok () b' := by
  rw [assembleInto_eq, Step.adaptExcept_eq_ok_iff]

theorem assembleInto_eq_error_iff :
    assembleInto source b = .error e b' ↔
      ∃ x, effects 0 (readings source) b = .error x b' ∧ faultOf x = e := by
  rw [assembleInto_eq, Step.adaptExcept_eq_error_iff]

/-- The failing line is one of the lines of the text. -/
theorem le_of_effects_error (h : effects 0 (readings source) b = .error (k, p) b') :
    1 ≤ k ∧ k ≤ (lines source.toList).length := by
  rw [readings, ← effects_lines] at h
  obtain ⟨done, r, rest, -, hrs, rfl, -, -⟩ := exists_of_effects_error h
  have hlen := congrArg List.length hrs
  rw [List.length_map, List.length_append, List.length_cons] at hlen
  omega

theorem readings_append (s₁ s₂ : String) :
    readings (s₁ ++ "\n" ++ s₂) = readings s₁ ++ readings s₂ := by
  have hcut : (s₁ ++ "\n" ++ s₂).toList = s₁.toList ++ '\n' :: s₂.toList := by simp
  rw [readings, hcut, Text.segments_append_newline, List.map_append, readings, readings]

theorem length_readings (source : String) :
    (readings source).length = source.toList.count '\n' + 1 := by
  rw [readings, List.length_map, Text.length_segments]

/-! ## Two texts -/

/-- The later text is assembled into what the earlier one leaves, with its lines counted on. -/
theorem assembleInto_append (b : Builder)
    (h : (lines (s₁ ++ "\n" ++ s₂).toList).length < 2 ^ 32) :
    Step.Ends (assembleInto s₁) b
      (fun _ b₁ => Step.Ends (assembleInto s₂) b₁
        (fun _ b₂ => assembleInto (s₁ ++ "\n" ++ s₂) b = .ok () b₂)
        fun e b₂ => ∃ line p line', e = .source line p ∧
          line'.toNat = line.toNat + (s₁.toList.count '\n' + 1) ∧
            assembleInto (s₁ ++ "\n" ++ s₂) b = .error (.source line' p) b₂)
      fun e b₁ => assembleInto (s₁ ++ "\n" ++ s₂) b = .error e b₁ := by
  have hwhole : effects 0 (readings (s₁ ++ "\n" ++ s₂)) = effects 0 (readings s₁) >>= fun _ =>
      (effects 0 (readings s₂)).adaptExcept fun x => (x.1 + (s₁.toList.count '\n' + 1), x.2) := by
    rw [readings_append, effects_append, effects_add, length_readings]
  have hfirst {b₁ : Builder} (h₁ : assembleInto s₁ b = .ok () b₁) :
      effects 0 (readings (s₁ ++ "\n" ++ s₂)) b =
        (effects 0 (readings s₂)).adaptExcept (fun x => (x.1 + (s₁.toList.count '\n' + 1), x.2))
          b₁ := by
    rw [hwhole, Step.bind_ok (assembleInto_eq_ok_iff.mp h₁)]
  refine Step.ends_iff.mpr ⟨fun _ b₁ h₁ => Step.ends_iff.mpr ⟨fun _ b₂ h₂ => ?_, fun e b₂ h₂ => ?_⟩,
    fun e b₁ h₁ => ?_⟩
  · exact assembleInto_eq_ok_iff.mpr
      ((hfirst h₁).trans (Step.adaptExcept_ok (assembleInto_eq_ok_iff.mp h₂) _))
  · obtain ⟨⟨k, p⟩, hx, rfl⟩ := assembleInto_eq_error_iff.mp h₂
    have hboth : effects 0 (readings (s₁ ++ "\n" ++ s₂)) b
        = .error (k + (s₁.toList.count '\n' + 1), p) b₂ := by
      rw [hfirst h₁, Step.adaptExcept_error hx]
    have hle := (le_of_effects_error hboth).2
    have hlt : k + (s₁.toList.count '\n' + 1) < 2 ^ 32 := by omega
    have hk : k.toUInt32.toNat = k := UInt32.toNat_ofNat_of_lt (Nat.lt_of_le_of_lt (by simp) hlt)
    refine ⟨_, p, _, rfl, ?_, assembleInto_eq_error_iff.mpr ⟨_, hboth, rfl⟩⟩
    rw [hk]
    exact UInt32.toNat_ofNat_of_lt hlt
  · obtain ⟨x, hx, rfl⟩ := assembleInto_eq_error_iff.mp h₁
    exact assembleInto_eq_error_iff.mpr ⟨x, hwhole ▸ Step.bind_error hx, rfl⟩

/-! ## The first line that is wrong -/

/-- Of the lines of a text, the one with number `line` is the first that is wrong, and the problem
is `p`. The builder `b'` holds what the lines before it emit into `b`. Only if there is no string id
left, it may also hold the instruction that gave one to the name of an attribute. -/
structure FirstFailure (source : String) (b : Builder) (line : UInt32) (p : SourceProblem)
    (b' : Builder) : Prop where
  least : IsLeast {k | ∃ e b₁,
    assembleInto (String.ofList (firstLines k source.toList)) b = .error e b₁} line.toNat
  left : ∃ b₁, assembleInto (String.ofList (firstLines (line.toNat - 1) source.toList)) b
      = .ok () b₁ ∧ (b' = b₁ ∨ p = .idsExhausted ∧ ∃ l name value id,
        (lines source.toList)[line.toNat - 1]? = some l ∧
          readLine (trim l) = .ok (.setAttribute name value) ∧
            Builder.addString name id b₁ = .ok () b')

theorem assembleInto_firstLines (k : Nat) (source : String) :
    assembleInto (String.ofList (firstLines k source.toList))
      = (effects 0 (((lines source.toList).map reading).take k)).adaptExcept faultOf := by
  rw [assembleInto, String.toList_ofList, Text.lines_firstLines, assembleLines_eq, List.map_take]

/-- A text fails at the first of its lines that fails, whatever stands after it. -/
theorem effects_error {before : Nat} {done : List Reading} {r : Reading}
    (hdone : effects before done b = .ok () b₁) (hr : effect r b₁ = .error p b')
    (rest : List Reading) :
    effects before (done ++ r :: rest) b = .error (before + done.length + 1, p) b' := by
  have hfirst : (effect r).adaptExcept (before + done.length + 1, ·) b₁
      = .error (before + done.length + 1, p) b' := by
    rw [Step.adaptExcept_error hr]
  rw [effects_append, Step.bind_ok hdone, effects, Step.bind_error hfirst]

/-- What goes well as a whole goes well up to any of its lines. -/
theorem exists_effects_take_ok {before : Nat} {done : List Reading}
    (hdone : effects before done b = .ok () b₁) (j : Nat) :
    ∃ b₂, effects before (done.take j) b = .ok () b₂ := by
  rw [← List.take_append_drop j done, effects_append] at hdone
  cases hj : effects before (done.take j) b with
  | ok _ b₂ => exact ⟨b₂, rfl⟩
  | error e b₂ =>
    rw [Step.bind_error hj] at hdone
    cases hdone

/-- The first lines of a text fail together as their readings do. -/
theorem firstLines_fail_iff :
    (∃ e b₁, assembleInto (String.ofList (firstLines k source.toList)) b = .error e b₁) ↔
      ∃ x b₁, effects 0 (((lines source.toList).map reading).take k) b = .error x b₁ := by
  rw [assembleInto_firstLines]
  constructor
  · rintro ⟨e, b₁, h⟩
    obtain ⟨x, hx, -⟩ := Step.adaptExcept_eq_error_iff.mp h
    exact ⟨x, b₁, hx⟩
  · rintro ⟨x, b₁, hx⟩
    exact ⟨faultOf x, b₁, Step.adaptExcept_error hx _⟩

/-- The fewest readings from the start that fail are those up to the one that fails. -/
theorem isLeast_failing {before : Nat} {done : List Reading} {r : Reading}
    (hdone : effects before done b = .ok () b₁) (hr : effect r b₁ = .error p b')
    (rest : List Reading) :
    IsLeast {k | ∃ x b₂, effects before ((done ++ r :: rest).take k) b = .error x b₂}
      (done.length + 1) := by
  constructor
  · have htake : (done ++ r :: rest).take (done.length + 1) = done ++ [r] := by
      rw [List.take_append, Nat.add_sub_cancel_left, List.take_of_length_le (Nat.le_succ _)]
      rfl
    exact ⟨_, b', htake ▸ effects_error hdone hr []⟩
  · rintro j ⟨x, b₂, hfails⟩
    by_contra hlt
    obtain ⟨b₃, hok⟩ := exists_effects_take_ok hdone j
    rw [List.take_append_of_le_length (by omega)] at hfails
    cases hok.symm.trans hfails

theorem firstFailure_of_error (h : assembleInto source b = .error e b')
    (hlines : (lines source.toList).length < 2 ^ 32) :
    ∃ line p, e = .source line p ∧ FirstFailure source b line p b' := by
  obtain ⟨⟨k, p⟩, hx, rfl⟩ := assembleInto_eq_error_iff.mp h
  have hle := (le_of_effects_error hx).2
  have hk : k.toUInt32.toNat = k := UInt32.toNat_ofNat_of_lt (Nat.lt_of_le_of_lt hle hlines)
  -- lines in place of segments, because it is a line that is named
  rw [readings, ← effects_lines] at hx
  obtain ⟨done, r, rest, b₁, hrs, rfl, hdone, hr⟩ := exists_of_effects_error hx
  rw [Nat.zero_add] at hk ⊢
  refine ⟨_, p, rfl, ?_, ?_⟩
  · simp only [firstLines_fail_iff, hk, hrs]
    exact isLeast_failing hdone hr rest
  · rw [hk, Nat.add_sub_cancel]
    refine ⟨b₁, ?_, (kept_of_effect_error hr).imp_right ?_⟩
    · rw [assembleInto_firstLines, hrs, List.take_left, Step.adaptExcept_ok hdone]
    · rintro ⟨rfl, ts, name, value, id, rfl, hs, hadd⟩
      obtain ⟨ls, ls', hls, rfl, hl⟩ := List.map_eq_append_iff.mp hrs
      obtain ⟨l, ls'', rfl, hl, -⟩ := List.map_eq_cons_iff.mp hl
      refine ⟨rfl, l, name, value, id, ?_, ?_, hadd⟩
      · rw [hls, List.length_map, List.getElem?_append_right (Nat.le_refl _), Nat.sub_self]
        rfl
      · rw [reading] at hl
        rw [readLine_eq, hl]
        exact hs

/-- A text that is cut at a line feed is assembled like its two parts one after another, with the
lines of the second part counted on. An assembly fails with the first line that is wrong, and the
builder holds what the lines before it have emitted. The failing line has emitted nothing, unless
there is no string id left. -/
theorem assembly_by_lines (b : Builder) :
    (∀ s₁ s₂ : String, (lines (s₁ ++ "\n" ++ s₂).toList).length < 2 ^ 32 →
      Step.Ends (assembleInto s₁) b
        (fun _ b₁ => Step.Ends (assembleInto s₂) b₁
          (fun _ b₂ => assembleInto (s₁ ++ "\n" ++ s₂) b = .ok () b₂)
          fun e b₂ => ∃ line p line', e = .source line p ∧
            line'.toNat = line.toNat + (s₁.toList.count '\n' + 1) ∧
              assembleInto (s₁ ++ "\n" ++ s₂) b = .error (.source line' p) b₂)
        fun e b₁ => assembleInto (s₁ ++ "\n" ++ s₂) b = .error e b₁) ∧
    (∀ source : String, (lines source.toList).length < 2 ^ 32 → ∀ e b',
      assembleInto source b = .error e b' →
        ∃ line p, e = .source line p ∧ FirstFailure source b line p b') ∧
    SourceProblem.message .idsExhausted = "string id space exhausted" :=
  ⟨fun _ _ h => assembleInto_append b h, fun _ h _ _ hx => firstFailure_of_error hx h, rfl⟩

/-- The second line of a text is wrong: a literal is open at its end. -/
theorem assembly_openLiteral :
    assembleInto (";" ++ "\n" ++ "\"") .empty = .error (.source 2 .unterminatedText) .empty ∧
      FirstFailure (";" ++ "\n" ++ "\"") .empty 2 .unterminatedText .empty := by
  have hcomment : assembleInto ";" .empty = .ok () .empty := by
    have hread : readings ";" = [.ok []] :=
      congrArg (fun r => [r]) (saysNothing_trim_iff.mp rfl : reading [';'] = .ok [])
    refine assembleInto_eq_ok_iff.mpr ?_
    rw [hread]
    rfl
  have hliteral : assembleInto "\"" .empty = .error (.source 1 .unterminatedText) .empty := by
    have hread : readings "\"" = [.error .unterminatedText] := by
      show [tokens ['"']] = _
      rw [tokens_cons, if_neg (by decide), if_neg (by decide), if_pos rfl]
      rfl
    refine assembleInto_eq_error_iff.mpr ⟨(1, .unterminatedText), ?_, rfl⟩
    rw [hread]
    rfl
  obtain ⟨happend, hfirst, -⟩ := assembly_by_lines .empty
  have hshort : (lines (";" ++ "\n" ++ "\"").toList).length < 2 ^ 32 := by decide
  have hparts := happend ";" "\"" hshort
  rw [Step.Ends, hcomment] at hparts
  dsimp only at hparts
  rw [Step.Ends, hliteral] at hparts
  obtain ⟨line, p, line', hline, hnumber, hwhole⟩ := hparts
  cases hline
  obtain rfl : line' = 2 := UInt32.toNat_inj.mp hnumber
  obtain ⟨line, p, hline, hfails⟩ := hfirst _ hshort _ _ hwhole
  cases hline
  exact ⟨hwhole, hfails⟩

end Source

end TreeEdit
