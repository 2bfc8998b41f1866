import TreeEdit.Proofs.Instr.Decoding

/-!
# What of a range can be read

`legible` reads a range as far as that goes. It keeps the instructions that were read when it comes
upon a fault, which the decoder throws away, and agrees with the decoder otherwise
(`readAll_eq_legible`). No longer part of the range is made of instructions (`legible_furthest`).
-/

namespace TreeEdit.Instr

open Binary

variable {c c' : Cursor} {i : Instr} {f : Fault}

/-- The instructions that are read from a cursor on, each with its offset, and the fault behind
them if the range does not end there. -/
def legible (c : Cursor) : List (Nat × Instr) × Option Fault :=
  if c.atEnd then ([], none)
  else
    match _h : read c with
    | .ok i c' => ((c.offset, i) :: (legible c').1, (legible c').2)
    | .error f _ => ([], some f)
termination_by c.remaining
decreasing_by
  all_goals
    have := remaining_of_read _h
    have := encodedLength_pos i
    omega

/-- The outcome of decoding, for what can be read. -/
def decoded : List (Nat × Instr) × Option Fault → Except Fault (List (Nat × Instr))
  | (ops, none) => .ok ops
  | (_, some f) => .error f

theorem decoded_eq_ok_iff {r : List (Nat × Instr) × Option Fault} {ops : List (Nat × Instr)} :
    decoded r = .ok ops ↔ r = (ops, none) := by
  obtain ⟨ops', _ | f⟩ := r <;> simp [decoded]

theorem legible_of_end (h : c.rest = []) : legible c = ([], none) := by
  rw [legible, Cursor.atEnd, h]
  rfl

theorem legible_of_fault (hne : c.rest ≠ []) (hr : read c = .error f c') :
    legible c = ([], some f) := by
  have hend : c.atEnd = false := List.isEmpty_eq_false_iff.mpr hne
  rw [legible, hend]
  split
  · contradiction
  · split
    · rename_i i₁ c₁ h₁
      cases hr.symm.trans h₁
    · rename_i f₁ c₁ h₁
      cases hr.symm.trans h₁
      rfl

theorem legible_of_read (hne : c.rest ≠ []) (hr : read c = .ok i c') :
    legible c = ((c.offset, i) :: (legible c').1, (legible c').2) := by
  have hend : c.atEnd = false := List.isEmpty_eq_false_iff.mpr hne
  rw [legible, hend]
  split
  · contradiction
  · split
    · rename_i i₁ c₁ h₁
      cases hr.symm.trans h₁
      rfl
    · rename_i f₁ c₁ h₁
      cases hr.symm.trans h₁

/-- What encodings start with is read as these instructions, and then as what comes after them. -/
theorem legible_encodings (is : List Instr) (offset : Nat) (rest : Bytes) :
    legible ⟨offset, is.flatMap encode ++ rest⟩ =
      (laidOut offset is ++ (legible ⟨offset + (is.flatMap encode).length, rest⟩).1,
        (legible ⟨offset + (is.flatMap encode).length, rest⟩).2) := by
  induction is generalizing offset with
  | nil => rfl
  | cons i is ih =>
    have hne : (i.encode ++ (is.flatMap encode ++ rest)) ≠ [] :=
      List.append_ne_nil_of_left_ne_nil (encode_ne_nil i) _
    rw [List.flatMap_cons, List.append_assoc, legible_of_read hne (read_encode i offset _), ih,
      List.length_append, length_encode, Nat.add_assoc, laidOut, List.cons_append]

/-! ## Against the decoder -/

/-- The decoder reads the same instructions, and has the same fault. -/
theorem readAll_eq_legible (c : Cursor) : readAll c = decoded (legible c) := by
  induction hn : c.remaining using Nat.strongRecOn generalizing c with
  | ind n ih =>
    subst hn
    by_cases hne : c.rest = []
    · rw [readAll_of_nil hne, legible_of_end hne]
      rfl
    cases hr : read c with
    | error f c' =>
      rw [readAll_of_error hne hr, legible_of_fault hne hr]
      rfl
    | ok i c' =>
      have hlt : c'.remaining < c.remaining := by
        have hrem := remaining_of_read hr
        have hpos := i.encodedLength_pos
        omega
      rw [readAll_of_ok hne hr, legible_of_read hne hr, ih _ hlt c' rfl]
      cases hf : (legible c').2 with
      | none =>
        have hc' : legible c' = ((legible c').1, none) := by rw [← hf]
        rw [hc']
        rfl
      | some f =>
        have hc' : legible c' = ((legible c').1, some f) := by rw [← hf]
        rw [hc']
        rfl

/-- What comes after an instruction in a range of words is a range of words. -/
theorem aligned_of_encode {rest : Bytes} (h : (i.encode ++ rest).length % Word.size = 0) :
    rest.length % Word.size = 0 := by
  have hi : i.encodedLength % Word.size = 0 := Nat.mul_mod_left _ _
  rw [List.length_append, length_encode] at h
  simp only [Word.size] at h hi ⊢
  omega

/-- Reading stops only where no instruction stands. -/
theorem legible_stuck (h : c.rest.length % Word.size = 0) :
    ∃ (is : List Instr) (rest : Bytes), c.rest = is.flatMap encode ++ rest ∧ Stuck rest ∧
      (legible c).1 = laidOut c.offset is := by
  induction hn : c.remaining using Nat.strongRecOn generalizing c with
  | ind n ih =>
    subst hn
    by_cases hne : c.rest = []
    · refine ⟨[], [], hne, stuck_nil, ?_⟩
      rw [legible_of_end hne]
      rfl
    rcases read_cases h hne with ⟨i, rest, hrest, hread⟩ | ⟨w, rest, c', hrest, -, hread⟩
    · have hlt : rest.length < c.rest.length := by
        have hpos := i.encodedLength_pos
        rw [hrest, List.length_append, length_encode]
        omega
      have haligned : rest.length % Word.size = 0 := aligned_of_encode (hrest ▸ h)
      obtain ⟨is, rest', his, hstuck, hlegible⟩ :=
        ih rest.length hlt (c := ⟨c.offset + i.encodedLength, rest⟩) haligned rfl
      have his' : rest = is.flatMap encode ++ rest' := his
      refine ⟨i :: is, rest', ?_, hstuck, ?_⟩
      · rw [hrest, his', List.flatMap_cons, List.append_assoc]
      · rw [legible_of_read hne hread, hlegible]
        rfl
    · refine ⟨[], c.rest, rfl, stuck_of_read_error hread, ?_⟩
      rw [legible_of_fault hne hread]
      rfl

/-- What can be read is the longest part that is made of instructions. -/
theorem legible_furthest (h : c.rest.length % Word.size = 0) :
    (∃ rest, Furthest c.rest ((legible c).1.map Prod.snd) rest) ∧
      (legible c).1 = laidOut c.offset ((legible c).1.map Prod.snd) := by
  obtain ⟨is, rest, hrest, hstuck, hlegible⟩ := legible_stuck h
  rw [hlegible, map_snd_laidOut]
  exact ⟨⟨rest, furthest_of_stuck hrest hstuck⟩, rfl⟩

/-! ## Ranges of a memory -/

/-- A range that is accepted is read from its first byte on, and it is made of words. -/
theorem ofRange_of_checked {mem : Bytes} {start len : UInt32} {first last : Nat}
    (h : checkRange mem.length start len = .ok (first, last)) :
    Cursor.ofRange mem start len = .ok ⟨start.toNat, window mem start len⟩ ∧
      (window mem start len).length % Word.size = 0 := by
  obtain ⟨hstart, hlen, hle, hr⟩ := checkRange_eq_ok_iff.mp h
  obtain ⟨rfl, rfl⟩ := Prod.mk.inj hr
  constructor
  · rw [Cursor.ofRange, h, window]
    show Except.ok (Cursor.mk start.toNat _) = _
    rw [Nat.add_sub_cancel_left]
  · have hwindow : (window mem start len).length = len.toNat := by
      rw [window, List.length_take, List.length_drop]
      omega
    rw [hwindow, hlen]

end TreeEdit.Instr
