import Mathlib.Logic.Relation
import TreeEdit.Instr.Decode
import TreeEdit.Proofs.Steps

/-!
# Where a cursor can come to

A cursor is set on the whole words of a memory or on a range of it, and then words and instructions
are read with it, in any order and whether the readings succeed or fail. However they go, the cursor
only ever passes over whole words of its range (`Cursor.skip`), so it stays on a word boundary
inside the range and what it has left is what stands there in the memory (`Cursor.Spans`).

Main statement: `disciplined_of_opens`. It also says exactly where each kind of reading leaves the
cursor.
-/

namespace TreeEdit.Binary

open Step (Ends)

variable {α : Type} {mem : Bytes} {first last : Nat} {c c' : Cursor}

/-! ## Cursors over a memory -/

/-- The cursor after `n` more bytes. -/
def Cursor.skip (c : Cursor) (n : Nat) : Cursor :=
  ⟨c.offset + n, c.rest.drop n⟩

/-- Some whole words of what `c` has left lie between it and `c'`. -/
def Cursor.Passes (c c' : Cursor) : Prop :=
  ∃ n, n % Word.size = 0 ∧ n ≤ c.rest.length ∧ c' = c.skip n

namespace Cursor

theorem length_skip (c : Cursor) (n : Nat) : (c.skip n).rest.length = c.rest.length - n :=
  List.length_drop

theorem skip_skip (c : Cursor) (m n : Nat) : (c.skip m).skip n = c.skip (m + n) := by
  simp only [skip, List.drop_drop, Nat.add_assoc]

/-- The end of the range stays where it is. -/
theorem limit_skip {n : Nat} (h : n ≤ c.rest.length) : (c.skip n).limit = c.limit := by
  rw [limit, limit, length_skip]
  simp only [skip]
  omega

theorem length_skip_mod {n : Nat} (h : c.rest.length % Word.size = 0) (hn : n % Word.size = 0) :
    (c.skip n).rest.length % Word.size = 0 := by
  rw [length_skip]
  simp only [Word.size] at h hn ⊢
  omega

end Cursor

/-- The cursor stands between `first` and `last`, at a distance of whole words from both, and what
it has left are the bytes of the memory up to `last`. -/
structure Cursor.Spans (mem : Bytes) (first last : Nat) (c : Cursor) : Prop where
  first_le : first ≤ c.offset
  le_last : c.offset ≤ last
  last_le : last ≤ mem.length
  aligned : c.offset % Word.size = first % Word.size
  whole : (last - first) % Word.size = 0
  rest_eq : c.rest = (mem.drop c.offset).take (last - c.offset)

namespace Cursor.Spans

theorem length_rest (h : c.Spans mem first last) : c.rest.length = last - c.offset := by
  have := h.last_le
  rw [h.rest_eq, List.length_take, List.length_drop]
  omega

theorem length_rest_mod (h : c.Spans mem first last) : c.rest.length % Word.size = 0 := by
  have ⟨_, _, _, haligned, hwhole, _⟩ := h
  rw [h.length_rest]
  simp only [Word.size] at haligned hwhole ⊢
  omega

theorem limit_eq (h : c.Spans mem first last) : c.limit = last := by
  have := h.le_last
  rw [Cursor.limit, h.length_rest]
  omega

/-- Whole words of the range may be passed over. -/
theorem skip (h : c.Spans mem first last) {n : Nat} (hn : n % Word.size = 0)
    (hle : n ≤ c.rest.length) : (c.skip n).Spans mem first last := by
  have hlen := h.length_rest
  obtain ⟨hfirst, hlast, hmem, haligned, hwhole, hrest⟩ := h
  refine ⟨?_, ?_, hmem, ?_, hwhole, ?_⟩
  · exact Nat.le_trans hfirst (Nat.le_add_right _ _)
  · simp only [Cursor.skip]
    omega
  · simp only [Cursor.skip, Word.size] at haligned hn ⊢
    omega
  · simp only [Cursor.skip]
    rw [hrest, List.drop_take, List.drop_drop, Nat.sub_add_eq]

end Cursor.Spans

/-- A cursor is set on the words of a memory, from `first` up to `last`. -/
inductive Cursor.Opens (mem : Bytes) : Nat → Nat → Cursor → Prop
  /-- On all whole words. -/
  | whole : Opens mem 0 (mem.length - mem.length % Word.size) (.whole mem)
  /-- On the range of `len` bytes at `start`, which must be in order. -/
  | range {start len : UInt32} {c : Cursor} (h : Cursor.ofRange mem start len = .ok c) :
    Opens mem start.toNat (start.toNat + len.toNat) c

theorem Cursor.Opens.spans (h : c.Opens mem first last) :
    c.offset = first ∧ c.Spans mem first last := by
  cases h with
  | whole =>
    refine ⟨rfl, Nat.le_refl 0, Nat.zero_le _, Nat.sub_le _ _, rfl, ?_, rfl⟩
    simp only [Word.size]
    omega
  | @range start len _ h =>
    rw [Cursor.ofRange] at h
    cases hchecked : checkRange mem.length start len with
    | error f =>
      rw [hchecked] at h
      cases h
    | ok p =>
      rw [hchecked] at h
      cases h
      obtain ⟨-, hlen, hle, rfl⟩ := checkRange_eq_ok_iff.mp hchecked
      refine ⟨rfl, Nat.le_refl _, Nat.le_add_right _ _, hle, rfl, ?_, rfl⟩
      rw [Nat.add_sub_cancel_left]
      exact hlen

/-! ## Words -/

/-- A word is read where one is left. Otherwise the range is used up, and the cursor stays. -/
theorem readWord_ends (h : c.rest.length % Word.size = 0) :
    Ends readWord c
      (fun w c' => c' = c.skip Word.size ∧ Word.size ≤ c.rest.length ∧
        c.rest.take Word.size = Word.bytes w)
      fun e c' => e = .truncated c.offset ∧ c' = c ∧ c.rest = [] := by
  rcases readWord_cases c with ⟨w, rest, hrest, hok⟩ | ⟨hlt, herror⟩
  · have hlen := Word.length_bytes w
    rw [Ends, hok]
    refine ⟨?_, ?_, ?_⟩
    · rw [Cursor.skip, hrest, List.drop_left' hlen]
    · rw [hrest, List.length_append, hlen]
      exact Nat.le_add_right _ _
    · rw [hrest, List.take_left' hlen]
  · rw [Ends, herror]
    refine ⟨rfl, rfl, List.length_eq_zero_iff.mp ?_⟩
    simp only [Word.size] at h hlt
    omega

/-- A reading that takes `n` words of a range of words. If there are fewer it fails at the end. -/
def Consumes (n : Nat) (x : Reading α) : Prop :=
  ∀ c : Cursor, c.rest.length % Word.size = 0 →
    Ends x c (fun _ c' => c' = c.skip (n * Word.size) ∧ n * Word.size ≤ c.rest.length)
      fun e c' => e = .truncated c.limit ∧ c' = c.skip c.rest.length

theorem consumes_pure (a : α) : Consumes 0 (pure a) := by
  intro c _
  rw [Nat.zero_mul]
  exact ⟨rfl, Nat.zero_le _⟩

theorem consumes_word {n : Nat} {f : UInt32 → Reading α} (hf : ∀ w, Consumes n (f w)) :
    Consumes (n + 1) (readWord >>= f) := by
  intro c h
  rw [Step.ends_bind]
  refine (readWord_ends h).mono (fun w c₁ h₁ => ?_) fun e c₁ h₁ => ?_
  · obtain ⟨rfl, hle, -⟩ := h₁
    refine (hf w _ (Cursor.length_skip_mod h rfl)).mono (fun a c' h' => ?_) fun e c' h' => ?_
    · obtain ⟨rfl, hle'⟩ := h'
      rw [Cursor.length_skip] at hle'
      rw [Cursor.skip_skip, Nat.succ_mul, Nat.add_comm Word.size]
      exact ⟨rfl, by omega⟩
    · obtain ⟨rfl, rfl⟩ := h'
      rw [Cursor.skip_skip, Cursor.length_skip, Nat.add_sub_cancel' hle]
      exact ⟨Cursor.limit_skip hle ▸ rfl, rfl⟩
  · obtain ⟨rfl, rfl, hrest⟩ := h₁
    rw [Cursor.limit, hrest]
    exact ⟨rfl, rfl⟩

end TreeEdit.Binary

namespace TreeEdit.Instr

open Binary Step

variable {mem : Bytes} {first last : Nat} {c c' c₀ : Cursor}

/-! ## Instructions -/

theorem consumes_operands (op : Opcode) : Consumes op.operandCount (readOperands op) := by
  cases op
  case setText | setAttribute | createText =>
    exact consumes_word fun _ => consumes_word fun _ => consumes_pure _
  case removeAttribute | createElement | removeListener =>
    exact consumes_word fun _ => consumes_pure _
  case newListener | updateListener | addString =>
    exact consumes_word fun _ => consumes_word fun _ => consumes_word fun _ => consumes_pure _
  all_goals exact consumes_pure _

/-- A word that is no opcode is passed over. If operands are missing, all that is left is. -/
theorem read_ends (h : c.rest.length % Word.size = 0) :
    Ends read c (fun i c' => c' = c.skip i.encodedLength ∧ i.encodedLength ≤ c.rest.length)
      fun e c' =>
        (∃ w, e = .unknownOpcode w c.offset ∧ c' = c.skip Word.size ∧
          Word.size ≤ c.rest.length) ∨
        (e = .truncated c.limit ∧ c' = c.skip c.rest.length) := by
  show Ends (readWord >>= fun w => readAfter w c.offset) c _ _
  rw [Step.ends_bind]
  refine (readWord_ends h).mono (fun w c₁ h₁ => ?_) fun e c₁ h₁ => ?_
  · obtain ⟨rfl, hle, -⟩ := h₁
    cases hop : Opcode.ofCode? w with
    | none =>
      simp only [readAfter, hop]
      exact .inl ⟨w, rfl, rfl, hle⟩
    | some op =>
      simp only [readAfter, hop]
      have hoperands := consumes_operands op (c.skip Word.size) (Cursor.length_skip_mod h rfl)
      refine Step.ends_iff.mpr ⟨fun i c' hok => ?_, fun e c' herror => ?_⟩
      · obtain ⟨rfl, hle'⟩ := (Step.ends_iff.mp hoperands).1 i c' hok
        rw [Cursor.length_skip] at hle'
        rw [Cursor.skip_skip, encodedLength, opcode_of_readOperands hok, Nat.add_mul, Nat.one_mul]
        exact ⟨rfl, by omega⟩
      · obtain ⟨rfl, rfl⟩ := (Step.ends_iff.mp hoperands).2 e c' herror
        rw [Cursor.skip_skip, Cursor.length_skip, Nat.add_sub_cancel' hle]
        exact .inr ⟨Cursor.limit_skip hle ▸ rfl, rfl⟩
  · obtain ⟨rfl, rfl, hrest⟩ := h₁
    refine .inr ⟨?_, ?_⟩
    · rw [Cursor.limit, hrest]
      rfl
    · rw [hrest]
      rfl

/-! ## Readings one after another -/

/-- The cursor after one reading, which may have failed. -/
inductive Advances (c : Cursor) : Cursor → Prop
  | word : Advances c (Step.after readWord c)
  | instr : Advances c (Step.after read c)

/-- Any number of readings. -/
def Advanced (c c' : Cursor) : Prop :=
  Relation.ReflTransGen Advances c c'

/-- No reading goes anywhere but over whole words of the range. -/
theorem Advances.passes (h : c.rest.length % Word.size = 0) (hc : Advances c c') : c.Passes c' := by
  cases hc with
  | word =>
    refine Ends.after (P := c.Passes) ((readWord_ends h).mono (fun w c' h' => ?_) fun e c' h' => ?_)
    · exact ⟨Word.size, rfl, h'.2.1, h'.1⟩
    · exact ⟨0, rfl, Nat.zero_le _, h'.2.1⟩
  | instr =>
    refine Ends.after (P := c.Passes) ((read_ends h).mono (fun i c' h' => ?_) fun e c' h' => ?_)
    · exact ⟨i.encodedLength, Nat.mul_mod_left _ _, h'.2, h'.1⟩
    · rcases h' with ⟨w, -, hc', hle⟩ | ⟨-, hc'⟩
      · exact ⟨Word.size, rfl, hle, hc'⟩
      · exact ⟨c.rest.length, h, Nat.le_refl _, hc'⟩

/-- The cursor stays in its range, and never goes back. -/
theorem Advanced.spans (h : c.Spans mem first last) (hc : Advanced c c') :
    c'.Spans mem first last ∧ c.offset ≤ c'.offset := by
  induction hc with
  | refl => exact ⟨h, Nat.le_refl _⟩
  | tail _ hlast ih =>
    obtain ⟨n, hn, hle, rfl⟩ := hlast.passes ih.1.length_rest_mod
    exact ⟨ih.1.skip hn hle, Nat.le_trans ih.2 (Nat.le_add_right _ _)⟩

/-- How a cursor on the memory from `first` up to `last` stands and how it goes on. -/
structure Disciplined (mem : Bytes) (first last : Nat) (c : Cursor) : Prop
    extends c.Spans mem first last where
  onward : ∀ c', Advanced c c' → c.offset ≤ c'.offset
  remaining : c.offset + c.remaining = last
  /-- A word that is read stands at the offset of the cursor and inside the range. -/
  word_ok : ∀ w c', readWord c = .ok w c' →
    c'.offset = c.offset + Word.size ∧ c'.offset ≤ last ∧
      (mem.drop c.offset).take Word.size = Word.bytes w
  word_error_iff : (∃ e c', readWord c = .error e c') ↔ c.offset = last
  word_error : ∀ e c', readWord c = .error e c' → e = .truncated c.offset ∧ c' = c
  instr_ok : ∀ i c', read c = .ok i c' → c'.offset = c.offset + i.encodedLength
  instr_unknown : ∀ w p c', read c = .error (.unknownOpcode w p) c' →
    p = c.offset ∧ c'.offset = c.offset + Word.size
  instr_truncated : ∀ p c', read c = .error (.truncated p) c' → p = last ∧ c'.offset = last
  /-- An instruction is not read for one of these two reasons. -/
  instr_error : ∀ e c', read c = .error e c' →
    (∃ w p, e = .unknownOpcode w p) ∨ ∃ p, e = .truncated p

theorem disciplined_of_spans (h : c.Spans mem first last) : Disciplined mem first last c := by
  have hmod := h.length_rest_mod
  have hlen := h.length_rest
  have hlimit := h.limit_eq
  obtain ⟨hword, hnoWord⟩ := Step.ends_iff.mp (readWord_ends hmod)
  obtain ⟨hinstr, hnoInstr⟩ := Step.ends_iff.mp (read_ends hmod)
  refine
    { h with
      onward := fun c' hc => (Advanced.spans h hc).2
      remaining := hlimit
      word_ok := fun w c' hok => ?_
      word_error_iff := ⟨?_, fun hend => ?_⟩
      word_error := fun e c' herror => ?_
      instr_ok := fun i c' hok => ?_
      instr_unknown := fun w p c' herror => ?_
      instr_truncated := fun p c' herror => ?_
      instr_error := fun e c' herror => ?_ }
  · obtain ⟨rfl, hle, hbytes⟩ := hword w c' hok
    refine ⟨rfl, ?_, ?_⟩
    · rw [← hlimit]
      exact Nat.add_le_add_left hle _
    · rw [h.rest_eq, List.take_take, Nat.min_eq_left (hlen ▸ hle)] at hbytes
      exact hbytes
  · rintro ⟨e, c', herror⟩
    obtain ⟨-, -, hrest⟩ := hnoWord e c' herror
    rw [← hlimit, Cursor.limit, hrest]
    rfl
  · cases hread : readWord c with
    | ok w c' =>
      obtain ⟨-, hle, -⟩ := hword w c' hread
      rw [hlen, hend, Nat.sub_self] at hle
      exact absurd hle (by decide)
    | error e c' => exact ⟨e, c', rfl⟩
  · exact ⟨(hnoWord e c' herror).1, (hnoWord e c' herror).2.1⟩
  · obtain ⟨rfl, -⟩ := hinstr i c' hok
    rfl
  · rcases hnoInstr _ c' herror with ⟨w', he, rfl, -⟩ | ⟨he, -⟩
    · cases he
      exact ⟨rfl, rfl⟩
    · cases he
  · rcases hnoInstr _ c' herror with ⟨w', he, -⟩ | ⟨he, rfl⟩
    · cases he
    · cases he
      exact ⟨hlimit, hlimit⟩
  · rcases hnoInstr e c' herror with ⟨w, he, -⟩ | ⟨he, -⟩
    · exact .inl ⟨w, _, he⟩
    · exact .inr ⟨_, he⟩

/-- Wherever readings have brought a cursor that was set on a memory, it is still in its range, on a
word boundary, and what it reads next is what stands there. -/
theorem disciplined_of_opens (h : c₀.Opens mem first last) (hc : Advanced c₀ c) :
    c₀.offset = first ∧ Disciplined mem first last c := by
  obtain ⟨hstart, hspans⟩ := h.spans
  exact ⟨hstart, disciplined_of_spans (Advanced.spans hspans hc).1⟩

/-- A word that is no opcode, one that takes two operands, one operand, and a byte. -/
def strayWords : Bytes :=
  [99, 0, 0, 0, 0, 0, 0, 0, 7, 0, 0, 0, 1]

/-- Two readings fail, the first at a word and the second at the end. The byte is out of reach. -/
theorem disciplined_strayWords :
    (Cursor.whole strayWords).Opens strayWords 0 12 ∧
    Advanced (Cursor.whole strayWords) ⟨12, []⟩ ∧
    (read (Cursor.whole strayWords)
      = .error (.unknownOpcode 99 0) ⟨4, [0, 0, 0, 0, 7, 0, 0, 0]⟩) ∧
    Disciplined strayWords 0 12 ⟨12, []⟩ := by
  have hopens : (Cursor.whole strayWords).Opens strayWords 0 12 := .whole
  have hadvanced : Advanced (Cursor.whole strayWords) ⟨12, []⟩ :=
    .tail (.tail .refl .instr) .instr
  exact ⟨hopens, hadvanced, rfl, (disciplined_of_opens hopens hadvanced).2⟩

end TreeEdit.Instr
