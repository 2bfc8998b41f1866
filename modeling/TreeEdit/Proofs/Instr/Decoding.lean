import Mathlib.Algebra.Ring.Nat
import TreeEdit.Instr.Decode

/-!
# What a range decodes to

The instructions that a range decodes to are the ones whose encodings it is made of, and there is at
most one way to make it of encodings, because no encoding can be mistaken for the start of another
one. A range that is not made of encodings is read as far as it is, and no further: what stands
there is no opcode, or an opcode whose operands reach beyond the range.

An aligned range is a list of words, so the reading of operands is settled on words (`Reads`);
`read_cases` says so of a whole instruction, and `readAll_cases` follows it through the range. Main
statement: `decodeRange_exact`.
-/

namespace TreeEdit.Instr

open Binary

/-! ## Words -/

/-- Bytes that make up whole words are the bytes of words. -/
theorem exists_words {bs : Bytes} (h : bs.length % Word.size = 0) :
    ∃ ws : List UInt32, bs = ws.flatMap Word.bytes := by
  -- on the number of bytes, four at a time
  induction hn : bs.length using Nat.strongRecOn generalizing bs with
  | ind n ih =>
    subst hn
    match bs with
    | [] => exact ⟨[], rfl⟩
    | b₀ :: b₁ :: b₂ :: b₃ :: rest =>
      have hrest : rest.length % Word.size = 0 := by
        simp only [List.length_cons, Word.size] at h ⊢
        omega
      have hlt : rest.length < (b₀ :: b₁ :: b₂ :: b₃ :: rest).length := by
        simp only [List.length_cons]
        omega
      obtain ⟨ws, hws⟩ := ih rest.length hlt hrest rfl
      refine ⟨Word.ofBytes b₀ b₁ b₂ b₃ :: ws, ?_⟩
      rw [List.flatMap_cons, Word.bytes_ofBytes, ← hws]
      rfl
    | [_] | [_, _] | [_, _, _] => simp [Word.size] at h

/-- A reading of `n` words: it takes words that `R` relates to the answer, or fails at the end of the
range because there are fewer. -/
def Reads {α : Type} (n : Nat) (R : List UInt32 → α → Prop) (x : Reading α) : Prop :=
  ∀ (offset : Nat) (ws : List UInt32),
    (∃ (taken rest : List UInt32) (a : α), ws = taken ++ rest ∧ R taken a ∧
      x ⟨offset, ws.flatMap Word.bytes⟩
        = .ok a ⟨offset + n * Word.size, rest.flatMap Word.bytes⟩) ∨
    (ws.length < n ∧
      ∃ c', x ⟨offset, ws.flatMap Word.bytes⟩
        = .error (.truncated (offset + ws.length * Word.size)) c')

theorem reads_pure {α : Type} {R : List UInt32 → α → Prop} {a : α} (h : R [] a) :
    Reads 0 R (pure a) := by
  intro offset ws
  refine .inl ⟨[], ws, a, rfl, h, ?_⟩
  rw [Nat.zero_mul]
  rfl

theorem reads_word {α : Type} {R : List UInt32 → α → Prop} {n : Nat} {f : UInt32 → Reading α}
    (h : ∀ w, Reads n (fun taken => R (w :: taken)) (f w)) : Reads (n + 1) R (readWord >>= f) := by
  intro offset ws
  cases ws with
  | nil =>
    refine .inr ⟨Nat.succ_pos n, ⟨offset, []⟩, ?_⟩
    rw [List.length_nil, Nat.zero_mul]
    rfl
  | cons w ws =>
    have hfirst : (readWord >>= f) ⟨offset, (w :: ws).flatMap Word.bytes⟩
        = f w ⟨offset + Word.size, ws.flatMap Word.bytes⟩ := by
      show EStateM.bind readWord f _ = _
      rw [List.flatMap_cons, EStateM.bind, readWord_bytes]
    have hsum (k : Nat) :
        offset + Word.size + k * Word.size = offset + (k + 1) * Word.size := by
      rw [Nat.succ_mul]
      omega
    rw [hfirst]
    rcases h w (offset + Word.size) ws with ⟨taken, rest, a, hws, hR, hok⟩ | ⟨hlt, c', herr⟩
    · refine .inl ⟨w :: taken, rest, a, by rw [hws, List.cons_append], hR, ?_⟩
      rw [hok, hsum]
    · refine .inr ⟨Nat.succ_lt_succ hlt, c', ?_⟩
      rw [herr, hsum, List.length_cons]

/-- The operands that are read are the operands of the instruction. -/
theorem reads_operands (op : Opcode) :
    Reads op.operandCount (fun taken i => i.opcode = op ∧ i.operands.map Prod.snd = taken)
      (readOperands op) := by
  cases op
  case setText | setAttribute | createText =>
    exact reads_word fun _ => reads_word fun _ => reads_pure ⟨rfl, rfl⟩
  case removeAttribute | createElement | removeListener =>
    exact reads_word fun _ => reads_pure ⟨rfl, rfl⟩
  case newListener | updateListener | addString =>
    exact reads_word fun _ => reads_word fun _ => reads_word fun _ => reads_pure ⟨rfl, rfl⟩
  all_goals exact reads_pure ⟨rfl, rfl⟩

/-! ## One instruction -/

/-- The word `w` and the bytes `rest` after it are no start of an instruction: `w` is no opcode, or
not all of its operands are there. -/
def Defect (w : UInt32) (rest : Bytes) : Prop :=
  15 ≤ w.toNat ∨ ∃ op : Opcode, op.code = w ∧ rest.length < op.operandCount * Word.size

/-- The fault of a defect at `offset`, in a range that ends at `limit`. -/
def defectFault (w : UInt32) (offset limit : Nat) : Fault :=
  if 15 ≤ w.toNat then .unknownOpcode w offset else .truncated limit

theorem ofCode?_eq_none_iff {w : UInt32} : Opcode.ofCode? w = none ↔ 15 ≤ w.toNat :=
  List.getElem?_eq_none_iff

theorem code_lt (op : Opcode) : op.code.toNat < 15 := by
  cases op <;> decide

theorem read_word (w : UInt32) (offset : Nat) (rest : Bytes) :
    read ⟨offset, Word.bytes w ++ rest⟩ = readAfter w offset ⟨offset + Word.size, rest⟩ := by
  show EStateM.bind readWord (fun w => readAfter w offset) ⟨offset, Word.bytes w ++ rest⟩ = _
  rw [EStateM.bind, readWord_bytes]

/-- At the start of a range of words stands an instruction or a defect. -/
theorem read_cases {c : Cursor} (h : c.rest.length % Word.size = 0) (hne : c.rest ≠ []) :
    (∃ i rest, c.rest = i.encode ++ rest ∧ read c = .ok i ⟨c.offset + i.encodedLength, rest⟩) ∨
    (∃ w rest c', c.rest = Word.bytes w ++ rest ∧ Defect w rest ∧
      read c = .error (defectFault w c.offset c.limit) c') := by
  obtain ⟨offset, bytes⟩ := c
  obtain ⟨ws, rfl⟩ := exists_words h
  obtain ⟨w, ws, rfl⟩ := List.exists_cons_of_ne_nil fun hws : ws = [] => hne (by rw [hws]; rfl)
  rw [List.flatMap_cons, read_word]
  cases hop : Opcode.ofCode? w with
  | none =>
    have hw : 15 ≤ w.toNat := ofCode?_eq_none_iff.mp hop
    refine .inr ⟨w, ws.flatMap Word.bytes, ⟨offset + Word.size, ws.flatMap Word.bytes⟩, rfl,
      .inl hw, ?_⟩
    simp only [readAfter, hop]
    rw [defectFault, if_pos hw]
    rfl
  | some op =>
    have hcode := Opcode.code_of_ofCode?_eq_some hop
    simp only [readAfter, hop]
    rcases reads_operands op (offset + Word.size) ws with
      ⟨taken, rest, i, hws, ⟨hi, htaken⟩, hok⟩ | ⟨hlt, c', herr⟩
    · refine .inl ⟨i, rest.flatMap Word.bytes, ?_, ?_⟩
      · rw [encode, words, hi, hcode, htaken, hws, List.flatMap_append, List.flatMap_cons,
          List.append_assoc]
      · rw [hok, encodedLength, hi, Nat.add_mul, Nat.one_mul, Nat.add_assoc]
    · have hw : ¬ 15 ≤ w.toNat := by
        rw [← hcode]
        exact Nat.not_le.mpr (code_lt op)
      refine .inr ⟨w, ws.flatMap Word.bytes, c', rfl, .inr ⟨op, hcode, ?_⟩, ?_⟩
      · rw [Word.length_flatMap_bytes]
        exact Nat.mul_lt_mul_of_pos_right hlt (by decide)
      · rw [herr, defectFault, if_neg hw, Cursor.limit, List.length_append,
          Word.length_flatMap_bytes, Word.length_bytes, Nat.add_assoc]

/-! ## Only one way to make bytes of encodings -/

/-- No encoding is the start of another one. -/
theorem encode_append_inj {i i' : Instr} {rest rest' : Bytes}
    (h : i.encode ++ rest = i'.encode ++ rest') : i = i' ∧ rest = rest' := by
  have hi := read_encode i 0 rest
  rw [h, read_encode] at hi
  obtain ⟨rfl, hc⟩ := EStateM.Result.ok.inj hi
  exact ⟨rfl, (Cursor.mk.inj hc).2.symm⟩

theorem encode_ne_nil (i : Instr) : i.encode ≠ [] := by
  intro h
  have hpos := i.encodedLength_pos
  rw [← i.length_encode, h] at hpos
  exact Nat.lt_irrefl 0 hpos

/-- No instruction stands at the start of these bytes. -/
def Stuck (bs : Bytes) : Prop :=
  ∀ (i : Instr) (rest : Bytes), bs ≠ i.encode ++ rest

theorem stuck_nil : Stuck [] := by
  intro i rest h
  exact encode_ne_nil i (List.append_eq_nil_iff.mp h.symm).1

/-- Where reading fails, no instruction stands. -/
theorem stuck_of_read_error {c c' : Cursor} {e : Fault} (h : read c = .error e c') :
    Stuck c.rest := by
  intro i rest hc
  obtain ⟨offset, bytes⟩ := c
  rw [show bytes = i.encode ++ rest from hc, read_encode] at h
  cases h

/-- Of two ways to start bytes with encodings, one that gets stuck goes on at least as far. -/
theorem prefix_of_stuck {is is' : List Instr} {rest rest' : Bytes}
    (h : is.flatMap encode ++ rest = is'.flatMap encode ++ rest') (hrest : Stuck rest) :
    is' <+: is := by
  induction is' generalizing is with
  | nil => exact List.nil_prefix
  | cons i' is' ih =>
    rw [List.flatMap_cons, List.append_assoc] at h
    cases is with
    | nil => exact absurd h (hrest i' _)
    | cons i is =>
      rw [List.flatMap_cons, List.append_assoc] at h
      obtain ⟨rfl, htail⟩ := encode_append_inj h
      exact List.cons_prefix_cons.mpr ⟨rfl, ih htail⟩

/-- Bytes are the encodings of one list of instructions at most. -/
theorem flatMap_encode_inj {is is' : List Instr}
    (h : is.flatMap encode = is'.flatMap encode) : is = is' := by
  have h₁ : is'.flatMap encode ++ [] = is.flatMap encode ++ [] := by rw [h]
  have hle := prefix_of_stuck h₁ stuck_nil
  have hge := prefix_of_stuck h₁.symm stuck_nil
  exact hle.eq_of_length_le hge.length_le

/-! ## Ranges -/

/-- Instructions one after another from an offset on, each with its own offset. -/
def laidOut : Nat → List Instr → List (Nat × Instr)
  | _, [] => []
  | offset, i :: is => (offset, i) :: laidOut (offset + i.encodedLength) is

/-- The instructions `ops` make up the bytes, and each of them is listed with the offset that those
before it lead to. -/
def Spells (offset : Nat) (bytes : Bytes) (ops : List (Nat × Instr)) : Prop :=
  bytes = (ops.map Prod.snd).flatMap encode ∧
    ∀ before op after, ops = before ++ op :: after →
      op.1 = offset + (before.map fun o => o.2.encodedLength).sum

theorem map_snd_laidOut (offset : Nat) (is : List Instr) :
    (laidOut offset is).map Prod.snd = is := by
  induction is generalizing offset with
  | nil => rfl
  | cons i is ih => rw [laidOut, List.map_cons, ih]

theorem eq_laidOut_iff {offset : Nat} {ops : List (Nat × Instr)} :
    ops = laidOut offset (ops.map Prod.snd) ↔
      ∀ before op after, ops = before ++ op :: after →
        op.1 = offset + (before.map fun o => o.2.encodedLength).sum := by
  induction ops generalizing offset with
  | nil => simp [laidOut]
  | cons first ops ih =>
    obtain ⟨at₀, i⟩ := first
    rw [List.map_cons, laidOut, List.cons.injEq, ih]
    constructor
    · rintro ⟨hfirst, hrest⟩ before op after h
      cases before with
      | nil =>
        cases h
        exact (Prod.mk.inj hfirst).1
      | cons b before =>
        obtain ⟨rfl, htail⟩ := List.cons.inj h
        rw [hrest before op after htail, List.map_cons, List.sum_cons, Nat.add_assoc]
    · intro h
      have hfirst : at₀ = offset := h [] (at₀, i) ops rfl
      refine ⟨by rw [hfirst], fun before op after htail => ?_⟩
      rw [h ((at₀, i) :: before) op after (by rw [htail, List.cons_append]), List.map_cons,
        List.sum_cons, Nat.add_assoc]

theorem spells_iff {offset : Nat} {bytes : Bytes} {ops : List (Nat × Instr)} :
    Spells offset bytes ops ↔
      bytes = (ops.map Prod.snd).flatMap encode ∧ ops = laidOut offset (ops.map Prod.snd) := by
  rw [Spells, eq_laidOut_iff]

theorem readAll_of_nil {c : Cursor} (h : c.rest = []) : readAll c = .ok [] := by
  rw [readAll, Cursor.atEnd, h]
  rfl

theorem readAll_of_ok {c c' : Cursor} {i : Instr} (hne : c.rest ≠ []) (h : read c = .ok i c') :
    readAll c = (readAll c').map ((c.offset, i) :: ·) := by
  have hend : c.atEnd = false := List.isEmpty_eq_false_iff.mpr hne
  rw [readAll, hend]
  split
  · contradiction
  · split
    · rename_i i₁ c₁ h₁
      cases h.symm.trans h₁
      rfl
    · rename_i e c₁ h₁
      cases h.symm.trans h₁

theorem readAll_of_error {c c' : Cursor} {e : Fault} (hne : c.rest ≠ [])
    (h : read c = .error e c') : readAll c = .error e := by
  have hend : c.atEnd = false := List.isEmpty_eq_false_iff.mpr hne
  rw [readAll, hend]
  split
  · contradiction
  · split
    · rename_i i₁ c₁ h₁
      cases h.symm.trans h₁
    · rename_i e₁ c₁ h₁
      cases h.symm.trans h₁
      rfl

/-- A range is read as far as it is made of encodings. -/
theorem readAll_cases {c : Cursor} (h : c.rest.length % Word.size = 0) :
    (∃ is : List Instr, c.rest = is.flatMap encode ∧ readAll c = .ok (laidOut c.offset is)) ∨
    (∃ (is : List Instr) (w : UInt32) (rest : Bytes),
      c.rest = is.flatMap encode ++ (Word.bytes w ++ rest) ∧ Defect w rest ∧
      Stuck (Word.bytes w ++ rest) ∧
      readAll c
        = .error (defectFault w (c.offset + (is.flatMap encode).length) c.limit)) := by
  -- on the bytes that are left to read
  induction hc : c.remaining using Nat.strongRecOn generalizing c with
  | ind remaining ih =>
    subst hc
    by_cases hend : c.rest = []
    · exact .inl ⟨[], hend, readAll_of_nil hend⟩
    rcases read_cases h hend with ⟨i, rest, hrest, hread⟩ | ⟨w, rest, c', hrest, hdefect, hread⟩
    · have hlen : c.rest.length = i.encodedLength + rest.length := by
        rw [hrest, List.length_append, length_encode]
      have haligned : rest.length % Word.size = 0 := by
        have : i.encodedLength % Word.size = 0 := Nat.mul_mod_left _ _
        simp only [Word.size] at h this ⊢
        omega
      have hlt : (⟨c.offset + i.encodedLength, rest⟩ : Cursor).remaining < c.remaining := by
        have := i.encodedLength_pos
        show rest.length < c.rest.length
        omega
      have hlimit : (⟨c.offset + i.encodedLength, rest⟩ : Cursor).limit = c.limit := by
        simp only [Cursor.limit]
        omega
      rcases ih _ hlt (c := ⟨c.offset + i.encodedLength, rest⟩) haligned rfl with
        ⟨is, his, hok⟩ | ⟨is, w, rest', his, hdefect, hstuck, herr⟩
      · refine .inl ⟨i :: is, ?_, ?_⟩
        · rw [hrest, List.flatMap_cons, ← his]
        · rw [readAll_of_ok hend hread, hok]
          rfl
      · refine .inr ⟨i :: is, w, rest', ?_, hdefect, hstuck, ?_⟩
        · rw [hrest, List.flatMap_cons, List.append_assoc, ← his]
        · rw [readAll_of_ok hend hread, herr, hlimit, List.flatMap_cons, List.length_append,
            length_encode, ← Nat.add_assoc]
          rfl
    · refine .inr ⟨[], w, rest, hrest, hdefect, ?_, readAll_of_error hend hread⟩
      rw [← hrest]
      exact stuck_of_read_error hread

/-- `is` are the instructions that the longest part made of encodings, from the start of the bytes
on, is made of; `rest` comes after them. -/
structure Furthest (bytes : Bytes) (is : List Instr) (rest : Bytes) : Prop where
  eq : bytes = is.flatMap encode ++ rest
  longest : ∀ (is' : List Instr) (rest' : Bytes), bytes = is'.flatMap encode ++ rest' →
    (is'.flatMap encode).length ≤ (is.flatMap encode).length

theorem furthest_of_stuck {bytes : Bytes} {is : List Instr} {rest : Bytes}
    (h : bytes = is.flatMap encode ++ rest) (hrest : Stuck rest) : Furthest bytes is rest := by
  refine ⟨h, fun is' rest' h' => ?_⟩
  obtain ⟨more, rfl⟩ := prefix_of_stuck (h.symm.trans h') hrest
  rw [List.flatMap_append, List.length_append]
  exact Nat.le_add_right _ _

/-- Decoding succeeds on the bytes that instructions make up, and answers these instructions. -/
theorem readAll_eq_ok_iff {c : Cursor} (h : c.rest.length % Word.size = 0)
    {ops : List (Nat × Instr)} : readAll c = .ok ops ↔ Spells c.offset c.rest ops := by
  rw [spells_iff]
  rcases readAll_cases h with ⟨is, his, hok⟩ | ⟨is, w, rest, his, -, hstuck, herr⟩
  · rw [hok, his]
    constructor
    · intro heq
      cases heq
      rw [map_snd_laidOut]
      exact ⟨rfl, rfl⟩
    · rintro ⟨hbytes, hops⟩
      rw [flatMap_encode_inj hbytes, ← hops]
  · rw [herr]
    refine ⟨nofun, fun ⟨hbytes, _⟩ => ?_⟩
    -- encodings cannot cover what is left over
    have hle := (furthest_of_stuck his hstuck).longest (ops.map Prod.snd) [] (by
      rw [List.append_nil, hbytes])
    rw [← hbytes, his, List.length_append, List.length_append, Word.length_bytes] at hle
    simp only [Word.size] at hle
    omega

/-! ## Ranges of a memory -/

/-- The `len` bytes at `start`. -/
def window (mem : Bytes) (start len : UInt32) : Bytes :=
  (mem.drop start.toNat).take len.toNat

/-- A range that is accepted decodes to the instructions whose encodings it is made of, and to no
others. If it is not made of encodings, the fault is about what comes after the longest part that
is. -/
theorem decodeRange_exact {mem : Bytes} {start len : UInt32} {first last : Nat}
    (h : checkRange mem.length start len = .ok (first, last)) :
    (∀ ops, decodeRange mem start len = .ok ops ↔ Spells start.toNat (window mem start len) ops) ∧
    (∀ is : List Instr, window mem start len = is.flatMap encode →
      ∃ ops, decodeRange mem start len = .ok ops ∧ ops.map Prod.snd = is) ∧
    ((∃ ops, decodeRange mem start len = .ok ops) ∨
      ∃ (is : List Instr) (w : UInt32) (rest : Bytes),
        Furthest (window mem start len) is (Word.bytes w ++ rest) ∧
        ((15 ≤ w.toNat ∧ decodeRange mem start len
            = .error (.unknownOpcode w (start.toNat + (is.flatMap encode).length))) ∨
          ∃ op : Opcode, op.code = w ∧ rest.length < op.operandCount * Word.size ∧
            decodeRange mem start len = .error (.truncated (start.toNat + len.toNat)))) := by
  obtain ⟨hstart, hlen, hle, hr⟩ := checkRange_eq_ok_iff.mp h
  obtain ⟨rfl, rfl⟩ := Prod.mk.inj hr
  have hwindow : (window mem start len).length = len.toNat := by
    rw [window, List.length_take, List.length_drop]
    omega
  have hdecode : decodeRange mem start len = readAll ⟨start.toNat, window mem start len⟩ := by
    rw [decodeRange, Cursor.ofRange, h, window]
    show readAll ⟨start.toNat, _⟩ = _
    rw [Nat.add_sub_cancel_left]
  have haligned : (⟨start.toNat, window mem start len⟩ : Cursor).rest.length % Word.size = 0 := by
    rw [hwindow, hlen]
  have hlimit : (⟨start.toNat, window mem start len⟩ : Cursor).limit
      = start.toNat + len.toNat := by
    rw [Cursor.limit, hwindow]
  rw [hdecode]
  refine ⟨fun ops => readAll_eq_ok_iff haligned, fun is his => ?_, ?_⟩
  · refine ⟨laidOut start.toNat is, (readAll_eq_ok_iff haligned).mpr ?_, map_snd_laidOut _ is⟩
    rw [spells_iff, map_snd_laidOut]
    exact ⟨his, rfl⟩
  · rcases readAll_cases haligned with ⟨is, -, hok⟩ | ⟨is, w, rest, his, hdefect, hstuck, herr⟩
    · exact .inl ⟨_, hok⟩
    · refine .inr ⟨is, w, rest, furthest_of_stuck his hstuck, ?_⟩
      rw [hlimit] at herr
      by_cases hw : 15 ≤ w.toNat
      · refine .inl ⟨hw, ?_⟩
        rw [herr, defectFault, if_pos hw]
      · obtain ⟨op, hop, hshort⟩ := hdefect.resolve_left hw
        refine .inr ⟨op, hop, hshort, ?_⟩
        rw [herr, defectFault, if_neg hw]

/-- A memory whose middle holds two instructions. -/
def twoInstrs : Bytes :=
  [0, 0, 0, 0] ++ [Instr.setAttribute 7 300, .pop].flatMap encode ++ [99]

/-- The two instructions are found with their offsets. -/
theorem decodeRange_twoInstrs :
    checkRange twoInstrs.length 4 16 = .ok (4, 20) ∧
      decodeRange twoInstrs 4 16 = .ok [(4, .setAttribute 7 300), (16, .pop)] := by
  have h : checkRange twoInstrs.length 4 16 = .ok (4, 20) := rfl
  refine ⟨h, ((decodeRange_exact h).1 _).mpr (spells_iff.mpr ?_)⟩
  exact ⟨rfl, rfl⟩

end TreeEdit.Instr
