import TreeEdit.Proofs.Instr.Decoding
import TreeEdit.Proofs.Text.Printed

/-!
# Instructions as they are shown

An instruction is shown as its name and then its operand words, each behind a sign that the opcode
has for it (`toList_render`). No sign looks like a digit and no name holds a blank, so the name and
the words can be read off again, also where something comes after the instruction, if a blank is in
between (`render_append_inj`).
-/

namespace TreeEdit

open Text (Printed Stops printed_of_ascii stops_cons stops_nil)
open Text.Numeral (decimal decimal_append_inj printed_decimal)

/-! ## Names -/

namespace Opcode

theorem mnemonic_inj {op op' : Opcode} (h : op.mnemonic = op'.mnemonic) : op = op' := by
  have hfound := ofMnemonic?_mnemonic op
  rw [h, ofMnemonic?_mnemonic] at hfound
  exact (Option.some_inj.mp hfound).symm

theorem ne_blank_of_mem_mnemonic (op : Opcode) {c : Char} (h : c ∈ op.mnemonic.toList) :
    (c != ' ') = true := by
  have hall (op : Opcode) : op.mnemonic.toList.all (· != ' ') = true := by
    cases op <;> decide
  exact List.all_eq_true.mp (hall op) c h

theorem printed_mnemonic (op : Opcode) : Printed op.mnemonic.toList :=
  printed_of_ascii (by cases op <;> decide)

/-- The signs before the operand words. -/
def signs : Opcode → List String
  | setText | createText => [" @", "+"]
  | setAttribute => [" #", " #"]
  | removeAttribute | createElement | removeListener => [" #"]
  | newListener | updateListener => [" #", " a=", " b="]
  | addString => [" @", "+", " #"]
  | removeSelfAndNextSiblings | replaceWith | pushFirstChild | popPushNextSibling | pop
  | appendChild => []

theorem length_signs (op : Opcode) : op.signs.length = op.operandCount := by
  cases op <;> rfl

theorem printed_sign (op : Opcode) {sign : String} (h : sign ∈ op.signs) :
    Printed sign.toList := by
  have hall (op : Opcode) : (op.signs.all fun s => s.toList.all Text.isAscii) = true := by
    cases op <;> decide
  exact printed_of_ascii (List.all_eq_true.mp (hall op) sign h)

/-- A sign is not empty and does not start with a digit. -/
theorem head_sign (op : Opcode) {sign : String} (h : sign ∈ op.signs) :
    ∃ c cs, sign.toList = c :: cs ∧ c.isDigit = false := by
  have hall (op : Opcode) :
      (op.signs.all fun s => s.toList.head?.any fun c => !c.isDigit) = true := by
    cases op <;> decide
  have hsign := List.all_eq_true.mp (hall op) sign h
  cases hlist : sign.toList with
  | nil =>
    rw [hlist] at hsign
    cases hsign
  | cons c cs =>
    rw [hlist] at hsign
    exact ⟨c, cs, rfl, Bool.not_eq_true' _ ▸ hsign⟩

end Opcode

/-! ## Operand words -/

namespace Instr

open Opcode (signs)

/-- Words in decimal, each after its sign. -/
def fields : List String → List UInt32 → List Char
  | sign :: signs, w :: ws => sign.toList ++ ((decimal w.toNat).toList ++ fields signs ws)
  | _, _ => []

/-- The words of an instruction that follow its opcode. -/
def arguments (i : Instr) : List UInt32 :=
  i.operands.map Prod.snd

theorem length_arguments (i : Instr) : i.arguments.length = i.opcode.signs.length := by
  rw [arguments, List.length_map, length_operands, Opcode.length_signs]

theorem toList_render (i : Instr) :
    i.render.toList = i.opcode.mnemonic.toList ++ fields (signs i.opcode) i.arguments := by
  cases i <;> simp [render, opcode, signs, arguments, operands, fields]

theorem printed_fields {signs : List String} {ws : List UInt32}
    (h : ∀ s ∈ signs, Printed s.toList) : Printed (fields signs ws) := by
  induction signs generalizing ws with
  | nil => exact nofun
  | cons sign signs ih =>
    cases ws with
    | nil => exact nofun
    | cons w ws =>
      exact (h sign List.mem_cons_self).append ((printed_decimal _).append
        (ih fun s hs => h s (List.mem_cons_of_mem _ hs)))

theorem printed_render (i : Instr) : Printed i.render.toList := by
  rw [toList_render]
  exact (Opcode.printed_mnemonic _).append (printed_fields fun _ => Opcode.printed_sign _)

theorem stops_fields {signs : List String} {ws : List UInt32} {r : List Char}
    (h : ∀ s ∈ signs, ∃ c cs, s.toList = c :: cs ∧ c.isDigit = false)
    (hr : Stops Char.isDigit r) : Stops Char.isDigit (fields signs ws ++ r) := by
  cases signs with
  | nil => exact hr
  | cons sign signs =>
    cases ws with
    | nil => exact hr
    | cons w ws =>
      obtain ⟨c, cs, hsign, hc⟩ := h sign List.mem_cons_self
      rw [fields, hsign]
      exact stops_cons hc _

/-- Behind known signs the words are read off, and what comes after them. -/
theorem fields_append_inj {signs : List String} {ws ws' : List UInt32} {r r' : List Char}
    (hsigns : ∀ s ∈ signs, ∃ c cs, s.toList = c :: cs ∧ c.isDigit = false)
    (hws : ws.length = signs.length) (hws' : ws'.length = signs.length)
    (hr : Stops Char.isDigit r) (hr' : Stops Char.isDigit r')
    (h : fields signs ws ++ r = fields signs ws' ++ r') : ws = ws' ∧ r = r' := by
  induction signs generalizing ws ws' with
  | nil =>
    rw [List.eq_nil_of_length_eq_zero hws, List.eq_nil_of_length_eq_zero hws'] at h ⊢
    exact ⟨rfl, h⟩
  | cons sign signs ih =>
    obtain ⟨w, ws, rfl⟩ := List.exists_cons_of_length_eq_add_one hws
    obtain ⟨w', ws', rfl⟩ := List.exists_cons_of_length_eq_add_one hws'
    have hrest (s : String) (hs : s ∈ signs) := hsigns s (List.mem_cons_of_mem _ hs)
    simp only [fields, List.append_assoc] at h
    obtain ⟨hw, htail⟩ := decimal_append_inj (stops_fields hrest hr) (stops_fields hrest hr')
      (List.append_cancel_left h)
    obtain ⟨rfl, rfl⟩ :=
      ih hrest (Nat.succ.inj hws) (Nat.succ.inj hws') htail
    exact ⟨by rw [UInt32.toNat_inj.mp hw], rfl⟩

/-! ## Instructions -/

theorem eq_of_arguments {i i' : Instr} (hop : i.opcode = i'.opcode)
    (h : i.arguments = i'.arguments) : i = i' := by
  have hwords : i.words = i'.words := by
    rw [words, ← arguments, hop, h, words, arguments]
  have hencode : i.encode ++ [] = i'.encode ++ [] := by rw [encode, hwords, encode]
  exact (encode_append_inj hencode).1

/-- A name ends where the first blank is, or with the text. -/
theorem stops_arguments (i : Instr) {r : List Char} (hr : Stops (· != ' ') r) :
    Stops (· != ' ') (fields (signs i.opcode) i.arguments ++ r) := by
  cases i with
  | removeSelfAndNextSiblings | replaceWith | pushFirstChild | popPushNextSibling | pop
  | appendChild => exact hr
  | _ => exact stops_cons rfl _

/-- An instruction is read off, and what comes after it, if a blank is in between. -/
theorem render_append_inj {i i' : Instr} {r r' : List Char} (hr : Stops (· != ' ') r)
    (hr' : Stops (· != ' ') r') (h : i.render.toList ++ r = i'.render.toList ++ r') :
    i = i' ∧ r = r' := by
  rw [toList_render, toList_render, List.append_assoc, List.append_assoc] at h
  obtain ⟨hname, hfields⟩ := Text.append_inj_of_stops (fun _ => i.opcode.ne_blank_of_mem_mnemonic)
    (fun _ => i'.opcode.ne_blank_of_mem_mnemonic) (stops_arguments i hr) (stops_arguments i' hr') h
  have hop : i.opcode = i'.opcode := Opcode.mnemonic_inj (String.toList_inj.mp hname)
  have hdigit {r : List Char} (hr : Stops (· != ' ') r) : Stops Char.isDigit r := fun c hc => by
    have hblank : c = ' ' := by simpa using hr c hc
    rw [hblank]
    rfl
  rw [hop] at hfields
  obtain ⟨hargs, hrest⟩ := fields_append_inj (fun _ => Opcode.head_sign _)
    (hop ▸ length_arguments i) (length_arguments i') (hdigit hr) (hdigit hr') hfields
  exact ⟨eq_of_arguments hop hargs, hrest⟩

end Instr

end TreeEdit
