import TreeEdit.Proofs.Instr.Rendering
import TreeEdit.Proofs.Listing

/-!
# Listings cannot be forged

The texts that a listing shows come from whoever wrote the program. Whatever is in them, they stay
on their lines: a listing has a title and one line for each instruction, and all of that is printed
characters (`Laid`). The offset and the instruction are read off the front of a line again, so the
listing tells which range it is of and what was decoded, and no two ranges that differ in that have
the same listing (`listing_faithful`).
-/

namespace TreeEdit

open Binary (Bytes)
open Text (Printed Stops printed_of_ascii stops_cons stops_nil)
open Text.Numeral (decimal decimal_append_inj printed_decimal printed_zeroFilled zeroFilled
  zeroFilled_append_inj)

namespace Listing

/-! ## Lines without their ends -/

/-- The first line of a listing. -/
def title (start len : UInt32) : List Char :=
  "== change list @".toList ++ ((decimal start.toNat).toList ++
    (" (+".toList ++ ((decimal len.toNat).toList ++ " bytes) ==".toList)))

/-- What stands after the instruction on a line. -/
def remark : Option String → List Char
  | some p => " ;; ".toList ++ p.toList
  | none => []

/-- The line of an instruction at an offset. -/
def entry (offset : Nat) (i : Instr) (preview : Option String) : List Char :=
  (zeroFilled 6 offset).toList ++ (" | ".toList ++ (i.render.toList ++ remark preview))

theorem toList_header (start len : UInt32) :
    (header start len).toList = title start len ++ ['\n'] := by
  have hend : " bytes) ==\n".toList = " bytes) ==".toList ++ ['\n'] := by decide
  unfold header title
  rw [String.toList_append, String.toList_append, String.toList_append, String.toList_append, hend]
  simp only [List.append_assoc]

theorem toList_line (offset : Nat) (i : Instr) (preview : Option String) :
    (line offset i preview).toList = entry offset i preview ++ ['\n'] := by
  cases preview <;> simp [line, entry, remark]

/-! ## What is read off a line -/

theorem title_inj {start len start' len' : UInt32} (h : title start len = title start' len') :
    start = start' ∧ len = len' := by
  have hafter (l : List Char) : Stops Char.isDigit (" (+".toList ++ l) := stops_cons rfl _
  have hend : Stops Char.isDigit " bytes) ==".toList := stops_cons rfl _
  obtain ⟨hstart, h⟩ := decimal_append_inj (hafter _) (hafter _) (List.append_cancel_left h)
  obtain ⟨hlen, -⟩ := decimal_append_inj hend hend (List.append_cancel_left h)
  exact ⟨UInt32.toNat_inj.mp hstart, UInt32.toNat_inj.mp hlen⟩

theorem stops_remark (preview : Option String) : Stops (· != ' ') (remark preview) := by
  cases preview with
  | none => exact stops_nil _
  | some p => exact stops_cons rfl _

theorem entry_inj {offset offset' : Nat} {i i' : Instr} {preview preview' : Option String}
    (h : entry offset i preview = entry offset' i' preview') : offset = offset' ∧ i = i' := by
  have hafter (l : List Char) : Stops Char.isDigit (" | ".toList ++ l) := stops_cons rfl _
  obtain ⟨hoffset, h⟩ := zeroFilled_append_inj (hafter _) (hafter _) h
  obtain ⟨hi, -⟩ := Instr.render_append_inj (stops_remark preview) (stops_remark preview')
    (List.append_cancel_left h)
  exact ⟨hoffset, hi⟩

/-! ## What stays on a line -/

theorem printed_title (start len : UInt32) : Printed (title start len) :=
  (printed_of_ascii (by decide)).append ((printed_decimal _).append
    ((printed_of_ascii (by decide)).append ((printed_decimal _).append
      (printed_of_ascii (by decide)))))

theorem printed_entry (offset : Nat) (i : Instr) {preview : Option String}
    (h : ∀ p, preview = some p → Printed p.toList) : Printed (entry offset i preview) := by
  have hremark : Printed (remark preview) := by
    cases preview with
    | none => exact nofun
    | some p => exact (printed_of_ascii (by decide)).append (h p rfl)
  exact (printed_zeroFilled _ _).append ((printed_of_ascii (by decide)).append
    ((Instr.printed_render i).append hremark))

variable {mem : Bytes} {known : Known}

theorem printed_quoted (t : String) : Printed (quoted t).toList := by
  rw [quoted, String.toList_ofList]
  exact Text.Quoted.printed_excerpt _

/-- What is shown of a text is printed characters, whatever the text is. -/
theorem printed_part {ref : TextRef} {s : String} (h : part mem known ref = .ok s) :
    Printed s.toList := by
  cases ref with
  | placed ptr len =>
    rw [part] at h
    cases ht : Binary.text mem ptr len with
    | error f =>
      rw [ht] at h
      cases h
    | ok t =>
      rw [ht] at h
      cases h
      exact printed_quoted t
  | stored id =>
    cases h
    rw [shown]
    split
    · exact printed_quoted _
    · exact printed_of_ascii (by decide)

theorem printed_parts {refs : List TextRef} {ps : List String}
    (h : List.Forall₂ (fun ref s => part mem known ref = .ok s) refs ps) :
    ∀ p ∈ ps, Printed p.toList := by
  induction h with
  | nil => exact nofun
  | cons hfirst _ ih => exact List.forall_mem_cons.mpr ⟨printed_part hfirst, ih⟩

theorem printed_caption {ps : List String} (h : ∀ p ∈ ps, Printed p.toList) {p : String}
    (hp : caption ps = some p) : Printed p.toList := by
  have hjoin (ps : List String) (hps : ∀ p ∈ ps, Printed p.toList) (q : String)
      (hq : Printed q.toList) : Printed (ps.foldl (· ++ "=" ++ ·) q).toList := by
    induction ps generalizing q with
    | nil => exact hq
    | cons p ps ih =>
      refine ih (fun r hr => hps r (List.mem_cons_of_mem _ hr)) _ ?_
      rw [String.toList_append, String.toList_append]
      exact (hq.append (printed_of_ascii (by decide))).append (hps p List.mem_cons_self)
  cases ps with
  | nil => cases hp
  | cons q ps =>
    cases hp
    exact hjoin ps (fun r hr => h r (List.mem_cons_of_mem _ hr)) q (h q List.mem_cons_self)

/-! ## Whole listings -/

/-- The lines `entries` are those of the instructions `ops`, in order. -/
def Entries (ops : List (Nat × Instr)) (entries : List (List Char)) : Prop :=
  List.Forall₂ (fun op l => ∃ preview, l = entry op.1 op.2 preview) ops entries

theorem Entries.inj {ops ops' : List (Nat × Instr)} {entries : List (List Char)}
    (h : Entries ops entries) (h' : Entries ops' entries) : ops = ops' := by
  induction h generalizing ops' with
  | nil =>
    cases h'
    rfl
  | cons hfirst _ ih =>
    obtain _ | ⟨hfirst', hrest'⟩ := h'
    obtain ⟨preview, rfl⟩ := hfirst
    obtain ⟨preview', hsame⟩ := hfirst'
    obtain ⟨hoffset, hi⟩ := entry_inj hsame
    rw [Prod.ext hoffset hi, ih hrest']

/-- Instructions have lines of printed characters. -/
theorem Captioned.exists_entries {ops : List (Nat × Instr)} {parts : List (List String)}
    (h : Captioned mem known ops parts) :
    ∃ entries, Entries ops entries ∧ (∀ l ∈ entries, Printed l) ∧
      (captions ops parts).flatMap String.toList = entries.flatMap (· ++ ['\n']) := by
  induction h with
  | nil => exact ⟨[], .nil, nofun, rfl⟩
  | @cons known offset i ps ops parts first _ ih =>
    obtain ⟨entries, hentries, hprinted, htext⟩ := ih
    refine ⟨entry offset i (caption ps) :: entries, .cons ⟨_, rfl⟩ hentries, fun l hl => ?_, ?_⟩
    · obtain rfl | hl := List.mem_cons.mp hl
      · exact printed_entry offset i fun p => printed_caption (printed_parts first)
      · exact hprinted l hl
    · rw [captions, List.zipWith_cons_cons, List.flatMap_cons, List.flatMap_cons, toList_line,
        ← captions, htext]

/-- The text is laid out as a listing of the range of `len` bytes at `start` is, in which `ops` were
decoded. -/
structure Laid (start len : UInt32) (ops : List (Nat × Instr)) (text : String) : Prop where
  /-- There is a title and a line for each instruction, and each of them ends with a line feed. -/
  lines : ∃ entries, Entries ops entries ∧
    text.toList = (title start len :: entries).flatMap (· ++ ['\n']) ∧
    Text.lines text.toList = title start len :: entries
  /-- Line feeds apart, the text is made of printed characters. -/
  printed : ∀ c ∈ text.toList, c = '\n' ∨ Text.isUnprintable c = false

theorem laid_of_listing {start len : UInt32} {text : String}
    (h : listing mem start len = .ok text) :
    ∃ ops, Instr.decodeRange mem start len = .ok ops ∧ Laid start len ops text := by
  obtain ⟨ops, parts, hops, hcaptioned, rfl⟩ := listing_ok h
  obtain ⟨entries, hentries, hprinted, htext⟩ := hcaptioned.exists_entries
  have hall : ∀ l ∈ title start len :: entries, Printed l := by
    intro l hl
    obtain rfl | hl := List.mem_cons.mp hl
    · exact printed_title start len
    · exact hprinted l hl
  have hlist : (String.join (header start len :: captions ops parts)).toList
      = (title start len :: entries).flatMap (· ++ ['\n']) := by
    rw [String.toList_join, List.flatMap_cons, htext, toList_header, List.flatMap_cons]
  refine ⟨ops, hops, ⟨entries, hentries, hlist, ?_⟩, fun c hc => ?_⟩
  · rw [hlist, Text.lines_flatMap_newline fun l hl => (hall l hl).isLine]
  · rw [hlist, List.mem_flatMap] at hc
    obtain ⟨l, hl, hc⟩ := hc
    obtain hc | hc := List.mem_append.mp hc
    · exact .inr (hall l hl c hc)
    · exact .inl (List.mem_singleton.mp hc)

/-- A text is laid out as one listing at most. -/
theorem Laid.inj {start len start' len' : UInt32} {ops ops' : List (Nat × Instr)} {text : String}
    (h : Laid start len ops text) (h' : Laid start' len' ops' text) :
    start = start' ∧ len = len' ∧ ops = ops' := by
  obtain ⟨entries, hentries, -, hlines⟩ := h.lines
  obtain ⟨entries', hentries', -, hlines'⟩ := h'.lines
  obtain ⟨htitle, rfl⟩ := List.cons.inj (hlines.symm.trans hlines')
  obtain ⟨hstart, hlen⟩ := title_inj htitle
  exact ⟨hstart, hlen, hentries.inj hentries'⟩

/-! ## Which ranges have a listing -/

/-- The text that an instruction points at, if it does so, lies in the memory. -/
def Inside (mem : Bytes) : Instr → Prop
  | .setText ptr len | .createText ptr len | .addString ptr len _ =>
    ptr.toNat + len.toNat ≤ mem.length
  | _ => True

theorem exists_text_iff {ptr len : UInt32} :
    (∃ t, Binary.text mem ptr len = .ok t) ↔ ptr.toNat + len.toNat ≤ mem.length := by
  rw [Binary.text, Binary.slice]
  split
  · rename_i h
    exact ⟨fun _ => h, fun _ => ⟨_, rfl⟩⟩
  · rename_i h
    exact iff_of_false (by rintro ⟨_, ⟨⟩⟩) h

/-- What cannot fail by itself goes through exactly if what comes before it does. -/
theorem exists_bind_pure_iff {α β : Type} (x : Except Fault α) (f : α → β) :
    (∃ b, (do return f (← x)) = Except.ok b) ↔ ∃ a, x = .ok a := by
  cases x with
  | ok a => exact ⟨fun _ => ⟨a, rfl⟩, fun _ => ⟨f a, rfl⟩⟩
  | error e => exact iff_of_false (by rintro ⟨_, ⟨⟩⟩) (by rintro ⟨_, ⟨⟩⟩)

theorem exists_preview_iff (known : Known) (i : Instr) :
    (∃ r, preview mem known i = .ok r) ↔ Inside mem i := by
  cases i with
  | setText ptr len | createText ptr len =>
    exact (exists_bind_pure_iff _ fun t => (some (quoted t), known)).trans exists_text_iff
  | addString ptr len id =>
    exact (exists_bind_pure_iff _ fun t => (some (quoted t), known.put id t)).trans
      exists_text_iff
  | _ => exact ⟨fun _ => trivial, fun _ => ⟨_, rfl⟩⟩

theorem exists_body_iff (known : Known) (ops : List (Nat × Instr)) :
    (∃ lines, body mem known ops = .ok lines) ↔ ∀ op ∈ ops, Inside mem op.2 := by
  induction ops generalizing known with
  | nil => exact ⟨fun _ => List.forall_mem_nil _, fun _ => ⟨[], rfl⟩⟩
  | cons op ops ih =>
    obtain ⟨offset, i⟩ := op
    rw [List.forall_mem_cons, ← exists_preview_iff known i, body]
    cases preview mem known i with
    | error e => exact iff_of_false (by rintro ⟨_, ⟨⟩⟩) (by rintro ⟨⟨_, ⟨⟩⟩, _⟩)
    | ok r =>
      obtain ⟨p, known'⟩ := r
      rw [← ih known', and_iff_right ⟨(p, known'), rfl⟩]
      exact exists_bind_pure_iff (body mem known' ops) fun lines => line offset i p :: lines

theorem exists_listing_iff (mem : Bytes) (start len : UInt32) :
    (∃ text, listing mem start len = .ok text) ↔
      ∃ ops, Instr.decodeRange mem start len = .ok ops ∧ ∀ op ∈ ops, Inside mem op.2 := by
  simp only [listing, ← exists_body_iff .empty]
  cases Instr.decodeRange mem start len with
  | error e => exact iff_of_false (by rintro ⟨_, ⟨⟩⟩) (by rintro ⟨_, ⟨⟩, _⟩)
  | ok ops =>
    simp only [Except.ok.injEq, exists_eq_left']
    exact exists_bind_pure_iff (body mem .empty ops) fun lines =>
      String.join (header start len :: lines)

/-- A range has a listing exactly if it can be decoded and the texts that its instructions point at
lie in the memory. Whatever is in these texts, a listing has its title and one line for each
instruction, in order, and the same text is a listing only of ranges with the same place, the same
length and the same instructions at the same offsets. -/
theorem listing_faithful (mem : Bytes) (start len : UInt32) :
    ((∃ text, listing mem start len = .ok text) ↔
      ∃ ops, Instr.decodeRange mem start len = .ok ops ∧ ∀ op ∈ ops, Inside mem op.2) ∧
    ∀ text, listing mem start len = .ok text →
      ∃ ops, Instr.decodeRange mem start len = .ok ops ∧ Laid start len ops text ∧
        ∀ mem' start' len', listing mem' start' len' = .ok text →
          start' = start ∧ len' = len ∧ Instr.decodeRange mem' start' len' = .ok ops := by
  refine ⟨exists_listing_iff mem start len, fun text h => ?_⟩
  obtain ⟨ops, hops, hlaid⟩ := laid_of_listing h
  refine ⟨ops, hops, hlaid, fun mem' start' len' h' => ?_⟩
  obtain ⟨ops', hops', hlaid'⟩ := laid_of_listing h'
  obtain ⟨hstart, hlen, rfl⟩ := hlaid'.inj hlaid
  exact ⟨hstart, hlen, hops'⟩

/-- A text that would end its line and start another one does neither. -/
example : listing (Text.Utf8.encode "\n000004 | pop" ++ [0, 0, 0] ++ (Instr.setText 0 13).encode)
      16 12
    = .ok ("== change list @16 (+12 bytes) ==\n" ++
        "000016 | set_text @0+13 ;; \"\\n000004 | pop\"\n") := by
  decide +kernel

end Listing

end TreeEdit
