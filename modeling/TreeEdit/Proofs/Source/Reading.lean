import TreeEdit.Proofs.Source.Assembly
import TreeEdit.Proofs.Text.Segments

/-!
# What a line says

All that a line does to a builder follows from its tokens; its number only stands in the fault. So
the assembly of a text is known from what is read on its lines, one after another
(`assembleInto_eq`), and it does not matter whether lines or segments are read.
-/

namespace TreeEdit.Source

open Text (Ended isBlank lines segments trim trimEnd trimStart)

/-! ## One line -/

/-- The tokens of a line, or why it has none. -/
abbrev Reading := Except SourceProblem (List Token)

/-- What is read on a line. -/
def reading (l : List Char) : Reading :=
  tokens (trim l)

/-- The statement that tokens make. -/
def statementOfTokens : List Token → Except SourceProblem Statement
  | .word name :: args => statement name args
  | _ => .error .mnemonicExpected

theorem readLine_eq (line : List Char) : readLine line = tokens line >>= statementOfTokens := by
  rw [readLine]
  cases tokens line with
  | error p => rfl
  | ok ts =>
    cases ts with
    | nil => rfl
    | cons t ts => cases t <;> rfl

/-- Emits a statement. The one reason for which that can fail is a problem of its line. -/
def emission (s : Statement) : EStateM SourceProblem Builder Unit :=
  s.emit.adaptExcept fun _ => .idsExhausted

/-- What a line does to a builder, whatever its number. -/
def effect (r : Reading) : EStateM SourceProblem Builder Unit := do
  let ts ← Step.ofExcept r
  if ts.isEmpty then pure ()
  else
    let s ← Step.ofExcept (statementOfTokens ts)
    emission s

theorem effect_ok {ts : List Token} (hts : ts ≠ []) :
    effect (.ok ts) = Step.ofExcept (statementOfTokens ts) >>= emission := by
  cases ts with
  | nil => exact absurd rfl hts
  | cons t ts => rfl

/-- A line that is not empty does not start with a blank once it is trimmed. -/
theorem isBlank_of_head?_trim {l : List Char} {c : Char} (h : (trim l).head? = some c) :
    isBlank c = false := by
  obtain ⟨w, -, hw⟩ := Text.exists_eq_trimEnd_append (trimStart l)
  have hhead : (trimStart l).head? = some c := by
    rw [trim] at h
    rw [hw, List.head?_append, h, Option.some_or]
  have hnot := List.head?_dropWhile_not isBlank l
  rw [trimStart] at hhead
  rw [hhead] at hnot
  exact hnot

/-- The early test for lines that say nothing finds just those without tokens. -/
theorem saysNothing_trim_iff {l : List Char} :
    saysNothing (trim l) = true ↔ reading l = .ok [] := by
  rw [reading]
  cases h : trim l with
  | nil => simp [saysNothing, tokens_nil]
  | cons c r =>
    have hc : isBlank c = false := isBlank_of_head?_trim (by rw [h]; rfl)
    have hcomment : saysNothing (c :: r) = true ↔ c = ';' := by simp [saysNothing]
    rw [hcomment, tokens_cons, if_neg (by simp [hc])]
    by_cases hsemi : c = ';'
    · simp [hsemi]
    · rw [if_neg hsemi]
      refine iff_of_false hsemi fun h => ?_
      split at h
      · split at h
        · cases h
        · rename_i s rest _
          cases hrest : tokens rest <;> rw [hrest] at h <;> cases h
      · cases hrest : tokens (r.dropWhile inWord) <;> rw [hrest] at h <;> cases h

theorem assembleLine_eq (number : UInt32) (l : List Char) :
    assembleLine number l = (effect (reading l)).adaptExcept (.source number) := by
  funext b
  rw [assembleLine]
  by_cases hnothing : saysNothing (trim l) = true
  · rw [if_pos hnothing, saysNothing_trim_iff.mp hnothing]
    rfl
  rw [if_neg hnothing, readLine_eq, ← reading]
  rw [saysNothing_trim_iff] at hnothing
  cases hr : reading l with
  | error p => rfl
  | ok ts =>
    have hts : ts ≠ [] := fun hnil => hnothing (hr.trans (congrArg Except.ok hnil))
    have hbind : (Except.ok ts >>= statementOfTokens) = statementOfTokens ts := rfl
    rw [hbind, effect_ok hts]
    cases hs : statementOfTokens ts with
    | error p => rfl
    | ok s =>
      have hfails := Step.ends_iff.mp (s.emit_ends_exhausted b)
      show s.emit.adaptExcept (Fault.onLine number) b
        = (s.emit.adaptExcept fun _ => SourceProblem.idsExhausted).adaptExcept (.source number) b
      rw [Step.adaptExcept_adaptExcept, EStateM.adaptExcept, EStateM.adaptExcept]
      cases hx : s.emit b with
      | ok _ b' => rfl
      | error f b' =>
        rw [hfails.2 f b' hx]
        rfl

/-! ## All lines -/

/-- What lines do to a builder, one after another, the first of which has the number after `before`.
A failure comes with the number of its line. -/
def effects (before : Nat) : List Reading → EStateM (Nat × SourceProblem) Builder Unit
  | [] => pure ()
  | r :: rs => do
    (effect r).adaptExcept (before + 1, ·)
    effects (before + 1) rs

/-- A problem of a line as a fault of the text. -/
def faultOf (failure : Nat × SourceProblem) : Fault :=
  .source failure.1.toUInt32 failure.2

/-- What is read on the lines of a text. -/
def readings (source : String) : List Reading :=
  (segments source.toList).map reading

theorem assembleLines_eq (before : Nat) (ls : List (List Char)) :
    assembleLines before ls = (effects before (ls.map reading)).adaptExcept faultOf := by
  induction ls generalizing before with
  | nil => rfl
  | cons l ls ih =>
    rw [assembleLines, List.map_cons, effects, Step.adaptExcept_bind, assembleLine_eq, ih,
      Step.adaptExcept_adaptExcept]
    rfl

theorem effects_append (before : Nat) (rs rs' : List Reading) :
    effects before (rs ++ rs') = effects before rs >>= fun _ =>
      effects (before + rs.length) rs' := by
  induction rs generalizing before with
  | nil => rfl
  | cons r rs ih =>
    rw [List.cons_append, effects, effects, ih, bind_assoc, List.length_cons,
      Nat.add_right_comm before, Nat.add_assoc before]

/-- Where the count starts makes no difference but for the number. -/
theorem effects_add (before d : Nat) (rs : List Reading) :
    effects (before + d) rs = (effects before rs).adaptExcept fun x => (x.1 + d, x.2) := by
  induction rs generalizing before with
  | nil => rfl
  | cons r rs ih =>
    rw [effects, effects, Step.adaptExcept_bind, Step.adaptExcept_adaptExcept,
      Nat.add_right_comm before d 1, ih]
    rfl

theorem effects_silent (before : Nat) (rs : List Reading) :
    effects before (.ok [] :: rs) = effects (before + 1) rs := rfl

/-- A failure comes from the first reading that fails, on the builder that those before it leave. -/
theorem exists_of_effects_error {before k : Nat} {rs : List Reading} {p : SourceProblem}
    {b b' : Builder} (h : effects before rs b = .error (k, p) b') :
    ∃ done r rest b₁, rs = done ++ r :: rest ∧ k = before + done.length + 1 ∧
      effects before done b = .ok () b₁ ∧ effect r b₁ = .error p b' := by
  induction rs generalizing before b with
  | nil => cases h
  | cons r rs ih =>
    cases hr : effect r b with
    | error q b₁ =>
      rw [effects, Step.bind_error (Step.adaptExcept_error hr _)] at h
      cases h
      exact ⟨[], r, rs, b, rfl, rfl, rfl, hr⟩
    | ok _ b₁ =>
      have hfirst := Step.adaptExcept_ok hr (before + 1, ·)
      rw [effects, Step.bind_ok hfirst] at h
      obtain ⟨done, r', rest, b₂, rfl, rfl, hdone, hr'⟩ := ih h
      refine ⟨r :: done, r', rest, b₂, rfl, ?_, ?_, hr'⟩
      · rw [List.length_cons]
        omega
      · rw [effects, Step.bind_ok hfirst]
        exact hdone

/-! ## Whole texts -/

theorem reading_of_ended {l l' : List Char} (h : Ended l l') : reading l' = reading l := by
  rw [reading, reading, h.trim_eq]

theorem map_reading_of_ended {ls ls' : List (List Char)} (h : List.Forall₂ Ended ls ls') :
    ls'.map reading = ls.map reading := by
  induction h with
  | nil => rfl
  | cons hl _ ih => rw [List.map_cons, List.map_cons, ih, reading_of_ended hl]

/-- It does not matter whether lines or segments are read. -/
theorem effects_lines (before : Nat) (cs : List Char) :
    effects before ((lines cs).map reading) = effects before ((segments cs).map reading) := by
  obtain ⟨rest, hrest, h⟩ := Text.lines_segments cs
  have hsilent : ∀ n, effects n (rest.map reading) = pure () := by
    intro n
    rcases hrest with rfl | rfl
    · rfl
    · have hnil : reading [] = .ok [] := tokens_nil
      rw [List.map_singleton, hnil, effects_silent, effects]
  rw [map_reading_of_ended h, List.map_append, effects_append]
  simp only [hsilent]
  exact (bind_pure _).symm

theorem assembleInto_eq (source : String) :
    assembleInto source = (effects 0 (readings source)).adaptExcept faultOf := by
  rw [assembleInto, assembleLines_eq, effects_lines, readings]

end TreeEdit.Source
