import TreeEdit.Proofs.Source.Printing
import TreeEdit.Proofs.Steps
import TreeEdit.Source.Assemble

/-!
# Assembling a printed program

Assembling undoes printing. Each printed line does to a builder what its statement does
(`assembleLine_printStatement`), so a printed program does what its statements do one after another,
up to the first that finds no string id left, and the fault names the line of that one
(`assemble_printProgram`).
-/

namespace TreeEdit

/-! ## How statements fail -/

/-- To give a text an id changes nothing, or emits the instruction for it, or finds no id left. -/
theorem Builder.stringId_ends_kept (text : String) (b : Builder) :
    Step.Ends (stringId text) b (fun _ b' => b' = b ∨ ∃ id, addString text id b = .ok () b')
      fun f b' => f = .idsExhausted ∧ b' = b := by
  rw [stringId, Step.ends_bind, Step.ends_get]
  cases b.ids.get? text with
  | some id => exact .inl rfl
  | none =>
    show Step.Ends (get >>= _) b _ _
    rw [Step.ends_bind, Step.ends_get]
    cases b.nextId with
    | none => exact ⟨rfl, rfl⟩
    | some id => exact .inr ⟨id, rfl⟩

namespace Statement

/-- Emitting fails for one reason only, and then only the name of an attribute may have got an id in
vain. -/
theorem emit_ends_kept (s : Statement) (b : Builder) :
    Step.Ends s.emit b (fun _ _ => True) fun f b' => f = .idsExhausted ∧ (b' = b ∨
      ∃ name value id, s = .setAttribute name value ∧ Builder.addString name id b = .ok () b') := by
  have hone : ∀ (text : String) (i : UInt32 → Instr),
      Step.Ends (do Builder.emitInstr (i (← Builder.stringId text)) : Emission Unit) b
        (fun _ _ => True) fun f b' => f = .idsExhausted ∧ (b' = b ∨
          ∃ name value id, s = .setAttribute name value ∧
            Builder.addString name id b = .ok () b') := by
    intro text i
    rw [Step.ends_bind]
    exact (Builder.stringId_ends_kept text b).mono (fun _ _ _ => trivial)
      fun _ _ h => ⟨h.1, .inl h.2⟩
  cases s with
  | setAttribute name value =>
    rw [emit, Step.ends_bind]
    refine (Builder.stringId_ends_kept name b).mono (fun _ b₁ hname => ?_)
      fun _ _ h => ⟨h.1, .inl h.2⟩
    rw [Step.ends_bind]
    refine (Builder.stringId_ends_kept value b₁).mono (fun _ _ _ => trivial) ?_
    rintro f b' ⟨hf, rfl⟩
    exact ⟨hf, hname.imp_right fun ⟨id, hid⟩ => ⟨name, value, id, rfl, hid⟩⟩
  | removeAttribute name => exact hone name .removeAttribute
  | createElement tag => exact hone tag .createElement
  | newListener event x y => exact hone event (.newListener · x y)
  | updateListener event x y => exact hone event (.updateListener · x y)
  | removeListener event => exact hone event .removeListener
  | _ => trivial

theorem emit_ends_exhausted (s : Statement) (b : Builder) :
    Step.Ends s.emit b (fun _ _ => True) fun f _ => f = .idsExhausted :=
  (s.emit_ends_kept b).mono (fun _ _ _ => trivial) fun _ _ h => h.1

/-- From `b`, the statement on line `line` of `program` is the first that finds no string id left.
The lines before it have been emitted, and `b'` is what it leaves. -/
def StopsAt (program : List Statement) (b : Builder) (line : Nat) (b' : Builder) : Prop :=
  ∃ done s rest b₁, program = done ++ s :: rest ∧ line = done.length + 1 ∧
    done.forM emit b = .ok () b₁ ∧ s.emit b₁ = .error .idsExhausted b'

end Statement

namespace Source

open Text (trim lines Flush IsLine)

/-! ## One line -/

theorem flush_printStatement (s : Statement) : Flush (printStatement s) := by
  rw [printStatement_eq]
  exact flush_operands (isWord_nameOf s).flush fun t ht => printable_of_mem_operandsOf ht

theorem isLine_printStatement (s : Statement) : IsLine (printStatement s) := by
  refine (flush_printStatement s).isLine ?_
  rw [printStatement_eq]
  exact newline_not_mem_printLine (isWord_nameOf s) fun t ht => printable_of_mem_operandsOf ht

/-- A printed line is neither empty nor a comment: it starts with a word. -/
theorem saysNothing_printStatement (s : Statement) : saysNothing (printStatement s) = false := by
  obtain ⟨c, cs, hc⟩ := List.exists_cons_of_ne_nil (isWord_nameOf s).nonempty
  have hsemi : c ≠ ';' :=
    (inWord_eq_true_iff.mp ((isWord_nameOf s).inWord c (by simp [hc]))).2.2
  rw [printStatement_eq, printLine, hc]
  simpa [saysNothing] using hsemi

theorem assembleLine_printStatement (number : UInt32) (s : Statement) :
    assembleLine number (printStatement s) = s.emit.adaptExcept (Fault.onLine number) := by
  rw [assembleLine, (flush_printStatement s).trim_eq]
  simp only [saysNothing_printStatement, readLine_printStatement, Bool.false_eq_true, if_false]

/-! ## All lines -/

theorem lines_printProgram (program : List Statement) :
    lines (printProgram program).toList = program.map printStatement := by
  have hlines : ∀ l ∈ program.map printStatement, IsLine l := by
    intro l hl
    obtain ⟨s, _, rfl⟩ := List.mem_map.mp hl
    exact isLine_printStatement s
  rw [printProgram, String.toList_ofList, ← Text.lines_flatMap_newline hlines, List.flatMap_map]

/-- Printed lines do what their statements do. The number of the line that fails follows from how
many lines were before the first of these. -/
theorem assembleLines_printed (program : List Statement) (before : Nat) (b : Builder) :
    Step.Ends (program.forM Statement.emit) b
      (fun _ b' => assembleLines before (program.map printStatement) b = .ok () b')
      fun _ b' => ∃ line, Statement.StopsAt program b line b' ∧
        assembleLines before (program.map printStatement) b
          = .error (.source (before + line).toUInt32 .idsExhausted) b' := by
  induction program generalizing before b with
  | nil => exact rfl
  | cons s program ih =>
    have hfails := Step.ends_iff.mp (s.emit_ends_exhausted b)
    have hline := assembleLine_printStatement (before + 1).toUInt32 s
    show Step.Ends (s.emit >>= fun _ => program.forM Statement.emit) b _ _
    rw [Step.ends_bind, Step.ends_iff]
    constructor
    · intro _ b₁ hs
      have hfirst : assembleLine (before + 1).toUInt32 (printStatement s) b = .ok () b₁ := by
        rw [hline, Step.adaptExcept_ok hs]
      have hrest : assembleLines before ((s :: program).map printStatement) b
          = assembleLines (before + 1) (program.map printStatement) b₁ :=
        Step.bind_ok hfirst
      refine (ih (before + 1) b₁).mono (fun _ b' h => hrest.trans h) ?_
      rintro _ b' ⟨line, ⟨done, t, rest, b₂, rfl, rfl, hdone, ht⟩, h⟩
      refine ⟨done.length + 1 + 1, ⟨s :: done, t, rest, b₂, rfl, rfl, ?_, ht⟩, ?_⟩
      · exact (Step.bind_ok hs).trans hdone
      · rw [hrest, h, Nat.add_assoc, Nat.add_comm 1]
    · intro f b' hs
      obtain rfl := hfails.2 f b' hs
      refine ⟨1, ⟨[], s, program, b, rfl, rfl, rfl, hs⟩, Step.bind_error ?_⟩
      rw [hline, Step.adaptExcept_error hs]
      rfl

/-- A printed program emits what its statements emit, into any builder, and assembled on its own it
is the program that they build. It fails only where a statement does, for want of a string id, and
names the line. -/
theorem assemble_printProgram (program : List Statement) (b : Builder) :
    Step.Ends (program.forM Statement.emit) b
        (fun _ b' => assembleInto (printProgram program) b = .ok () b')
        (fun _ b' => ∃ line, Statement.StopsAt program b line b' ∧
          assembleInto (printProgram program) b
            = .error (.source line.toUInt32 .idsExhausted) b') ∧
      Step.Ends (program.forM Statement.emit) .empty
        (fun _ b' => assemble (printProgram program) = .ok b'.finish)
        (fun _ b' => ∃ line, Statement.StopsAt program .empty line b' ∧
          assemble (printProgram program) = .error (.source line.toUInt32 .idsExhausted)) ∧
      SourceProblem.message .idsExhausted = "string id space exhausted" := by
  have hinto := assembleLines_printed program 0
  simp only [← lines_printProgram, Nat.zero_add] at hinto
  refine ⟨hinto b, (hinto .empty).mono (fun _ b' h => ?_) ?_, rfl⟩
  · rw [assemble, assembleInto, h]
  · rintro _ b' ⟨line, hstops, h⟩
    refine ⟨line, hstops, ?_⟩
    rw [assemble, assembleInto, h]

end Source

end TreeEdit
