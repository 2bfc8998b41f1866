import TreeEdit.Proofs.Machine.Folding

/-!
# Cutting a range in two

A range that is cut behind one of its instructions is read in two parts just as it is read in one:
offsets count from the start of the memory, not of the range, and nothing else is carried over from
one instruction to the next (`reading_of_halves`). So a queue with the two parts in it is run like
one with the whole (`runAll_halves`). The second part may hold anything; that the cut is behind an
instruction only needs the first part to decode.
-/

namespace TreeEdit

open Binary

/-- The range is made of two others, the second right behind the first. -/
structure Span.Halves (whole first second : Span) : Prop where
  start : first.start = whole.start
  next : second.start.toNat = first.start.toNat + first.len.toNat
  len : whole.len.toNat = first.len.toNat + second.len.toNat

namespace Machine

open Instr (decodeRange legible window)

variable {δ ν β τ : Type} {H : Host δ ν β} {mem : Bytes} {traced : Bool}
  {whole first second : Span} {ops : List (Nat × Instr)} {bounds : Nat × Nat}

/-! ## Reading the parts -/

/-- A range that decodes was accepted, and its bytes are the encodings of the instructions. -/
theorem reading_of_decoded {span : Span} (h : decodeRange mem span.start span.len = .ok ops) :
    reading mem span = (ops, none) ∧
      checkRange mem.length span.start span.len
        = .ok (span.start.toNat, span.start.toNat + span.len.toNat) ∧
      ∃ is : List Instr, window mem span.start span.len = is.flatMap Instr.encode ∧
        ops = Instr.laidOut span.start.toNat is := by
  have hreads := reads_reading mem span
  cases hp : checkRange mem.length span.start span.len with
  | error f =>
    rw [hreads.decoded, hreads.refused f hp] at h
    cases h
  | ok p =>
    have hp' := (checkRange_eq_ok_iff.mp hp).2.2.2
    subst hp'
    obtain ⟨hcursor, haligned⟩ := Instr.ofRange_of_checked hp
    have hread : Instr.readAll ⟨span.start.toNat, window mem span.start span.len⟩ = .ok ops := by
      rw [decodeRange, hcursor] at h
      exact h
    have hspells := Instr.spells_iff.mp ((Instr.readAll_eq_ok_iff haligned).mp hread)
    have hreading := Instr.decoded_eq_ok_iff.mp (hreads.decoded.symm.trans h)
    exact ⟨hreading, rfl, _, hspells.1, hspells.2⟩

/-- The bytes of a range are those of its parts. -/
theorem window_of_halves (h : whole.Halves first second) :
    window mem whole.start whole.len
      = window mem first.start first.len ++ window mem second.start second.len := by
  rw [window, window, window, h.len, h.next, h.start, List.take_add, List.drop_drop]

theorem reading_of_halves (h : whole.Halves first second)
    (hwhole : checkRange mem.length whole.start whole.len = .ok bounds)
    (hfirst : decodeRange mem first.start first.len = .ok ops) :
    reading mem first = (ops, none) ∧
      reading mem whole = (ops ++ (reading mem second).1, (reading mem second).2) := by
  obtain ⟨hreading, hchecked, is, his, rfl⟩ := reading_of_decoded hfirst
  refine ⟨hreading, ?_⟩
  obtain ⟨hstart, hlen, hle, -⟩ := checkRange_eq_ok_iff.mp hwhole
  obtain ⟨-, hlen₁, -, -⟩ := checkRange_eq_ok_iff.mp hchecked
  obtain ⟨hs, hn, hl⟩ := h
  have hlength : (is.flatMap Instr.encode).length = first.len.toNat := by
    rw [← his, window, List.length_take, List.length_drop, hs]
    omega
  -- what is behind the cut is in the memory, and starts at a word boundary as the whole does
  have hsecond : checkRange mem.length second.start second.len
      = .ok (second.start.toNat, second.start.toNat + second.len.toNat) := by
    rw [hs] at hn
    simp only [Word.size] at hstart hlen hlen₁
    rw [checkRange_eq_ok_iff, Word.size]
    exact ⟨by omega, by omega, by omega, rfl⟩
  have hoffset : whole.start.toNat + (is.flatMap Instr.encode).length = second.start.toNat := by
    rw [hlength, hn, hs]
  rw [reading, reading, (Instr.ofRange_of_checked hwhole).1, (Instr.ofRange_of_checked hsecond).1]
  dsimp only
  rw [window_of_halves ⟨hs, hn, hl⟩, his, Instr.legible_encodings, hoffset, hs]

/-! ## Running the parts -/

theorem script_of_halves (h : whole.Halves first second)
    (hwhole : checkRange mem.length whole.start whole.len = .ok bounds)
    (hfirst : decodeRange mem first.start first.len = .ok ops) (later : List Span) :
    script mem (first :: second :: later) = script mem (whole :: later) := by
  obtain ⟨hreading₁, hreading⟩ := reading_of_halves h hwhole hfirst
  rw [script, hreading₁, script, script, hreading]
  obtain ⟨ops', _ | f⟩ := reading mem second
  · dsimp only
    rw [List.append_assoc]
  · rfl

/-- In a queue, the two parts of a range are run like the whole. -/
theorem runAll_halves (h : whole.Halves first second)
    (hwhole : checkRange mem.length whole.start whole.len = .ok bounds)
    (hfirst : decodeRange mem first.start first.len = .ok ops) (earlier later : List Span) :
    (runAll H mem traced (earlier ++ first :: second :: later) : Act δ ν β τ Nat)
      = runAll H mem traced (earlier ++ whole :: later) := by
  induction earlier with
  | nil =>
    rw [List.nil_append, List.nil_append, runAll_eq, runAll_eq, script_of_halves h hwhole hfirst]
  | cons span earlier ih => rw [List.cons_append, List.cons_append, runAll, runAll, ih]

end Machine

end TreeEdit
