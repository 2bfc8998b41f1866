import TreeEdit.Proofs.Text.Lines
import TreeEdit.Source.Line
import TreeEdit.Source.Print

/-!
# What is printed is read back

A printed line is the name of a statement and its operands, as tokens (`printStatement_eq`). Each
token is read back off the front of a line (`tokens_literal`, `tokens_word`), so the line is
(`tokens_printLine`), and the tokens are those of the statement (`readLine_printStatement`).
-/

namespace TreeEdit

open Text (isBlank Flush IsLine)

/-! ## Numerals -/

namespace Text.Numeral

theorem isDigit_of_mem_decimal {n : Nat} {c : Char} (h : c ∈ (decimal n).toList) :
    c.isDigit = true := by
  rw [decimal, String.toList_ofList] at h
  exact Nat.isDigit_of_mem_toDigits (by omega) (by omega) h

theorem decimal_ne_nil (n : Nat) : (decimal n).toList ≠ [] := by
  rw [decimal, String.toList_ofList]
  exact Nat.toDigits_ne_nil

theorem dropPlus_of_isDigit {ds : List Char} (h : ∀ c ∈ ds, c.isDigit = true) :
    dropPlus ds = ds := by
  unfold dropPlus
  split
  · exact absurd (h '+' List.mem_cons_self) (by decide)
  · rfl

theorem value_decimal (n : Nat) : value (decimal n).toList = n := by
  rw [decimal, String.toList_ofList, value, ← Nat.ofDigitChars_eq_foldl]
  exact Nat.ofDigitChars_ten_toDigits

/-- A word that was written is read back. -/
theorem word?_decimal (w : UInt32) : word? (decimal w.toNat) = some w := by
  have hdigits : digits? (decimal w.toNat).toList = some w.toNat := by
    have hall : (decimal w.toNat).toList.all Char.isDigit = true :=
      List.all_eq_true.mpr fun c hc => isDigit_of_mem_decimal hc
    rw [digits?, if_pos ⟨decimal_ne_nil _, hall⟩, value_decimal]
  have hw : w.toNat ≤ maxWord := Nat.le_of_lt_succ w.toNat_lt
  rw [word?, unsigned?, dropPlus_of_isDigit fun c hc => isDigit_of_mem_decimal hc, hdigits,
    Option.filter_some, if_pos (by simpa using hw)]
  simp

end Text.Numeral

namespace Source

/-! ## Text literals -/

theorem readLiteral_plain {c : Char} (hq : c ≠ '"') (hb : c ≠ '\\') (r : List Char) :
    readLiteral (c :: r) = (readLiteral r).map fun (s, rest) => (c :: s, rest) := by
  rw [readLiteral]
  · exact hq
  · exact fun h => absurd h hb
  · exact fun _ _ h => absurd h hb

/-- What stands between the quotes of a literal, and the text that it spells. -/
inductive Spells : List Char → List Char → Prop
  | nil : Spells [] []
  | plain {c : Char} {x s : List Char} :
    c ≠ '"' → c ≠ '\\' → Spells x s → Spells (c :: x) (c :: s)
  | escape {c d : Char} {x s : List Char} :
    unescape? c = some d → Spells x s → Spells ('\\' :: c :: x) (d :: s)

theorem Spells.append {x s y s' : List Char} (h : Spells x s) (h' : Spells y s') :
    Spells (x ++ y) (s ++ s') := by
  induction h with
  | nil => exact h'
  | plain hq hb _ ih => exact .plain hq hb ih
  | escape hd _ ih => exact .escape hd ih

theorem readLiteral_of_spells {x s : List Char} (h : Spells x s) (r : List Char) :
    readLiteral (x ++ '"' :: r) = .ok (s, r) := by
  induction h with
  | nil => rw [List.nil_append, readLiteral]
  | plain hq hb _ ih =>
    rw [List.cons_append, readLiteral_plain hq hb, ih]
    rfl
  | escape hd _ ih =>
    rw [List.cons_append, List.cons_append, readLiteral, hd]
    dsimp only
    rw [ih]
    rfl

/-- A character is spelled as it is written. -/
theorem spells_escapeChar (c : Char) : Spells (escapeChar c) [c] := by
  by_cases hn : c = '\n'
  · subst hn
    exact .escape rfl .nil
  by_cases ht : c = '\t'
  · subst ht
    exact .escape rfl .nil
  by_cases hq : c = '"'
  · subst hq
    exact .escape rfl .nil
  by_cases hb : c = '\\'
  · subst hb
    exact .escape rfl .nil
  have hc : escapeChar c = [c] := by
    unfold escapeChar
    split <;> simp_all
  rw [hc]
  exact .plain hq hb .nil

theorem spells_escaped (cs : List Char) : Spells (cs.flatMap escapeChar) cs := by
  induction cs with
  | nil => exact .nil
  | cons c cs ih => exact (spells_escapeChar c).append ih

theorem newline_not_mem_escapeChar (c : Char) : '\n' ∉ escapeChar c := by
  unfold escapeChar
  split <;> simp_all [eq_comm]

/-! ## Tokens -/

/-- A token as it is printed. -/
def Token.print : Token → List Char
  | .word w => w.toList
  | .text t => literal t

/-- A word that has at least one character and ends where a word ends. -/
structure IsWord (w : String) : Prop where
  /-- It is not empty. -/
  nonempty : w.toList ≠ []
  /-- None of its characters ends a word. -/
  inWord : ∀ c ∈ w.toList, inWord c = true

/-- The token can be printed so that it is read back. -/
def Token.Printable : Token → Prop
  | .word w => IsWord w
  | .text _ => True

theorem inWord_eq_true_iff {c : Char} :
    inWord c = true ↔ isBlank c = false ∧ c ≠ '"' ∧ c ≠ ';' := by
  simp [inWord, and_assoc]

theorem tokens_nil : tokens [] = .ok [] := by
  unfold tokens
  rfl

theorem tokens_cons (c : Char) (r : List Char) :
    tokens (c :: r) =
      if isBlank c then tokens r
      else if c = ';' then .ok []
      else if c = '"' then
        match readLiteral r with
        | .error p => .error p
        | .ok (s, rest) => (tokens rest).map (.text (String.ofList s) :: ·)
      else
        (tokens (r.dropWhile inWord)).map
          (.word (String.ofList (c :: r.takeWhile inWord)) :: ·) := by
  rw [tokens.eq_def (c :: r)]
  dsimp only
  cases readLiteral r <;> rfl

theorem tokens_blank {c : Char} (hc : isBlank c = true) (r : List Char) :
    tokens (c :: r) = tokens r := by
  rw [tokens_cons, if_pos hc]

theorem tokens_quote (l : List Char) :
    tokens ('"' :: l) =
      match readLiteral l with
      | .error p => .error p
      | .ok (s, rest) => (tokens rest).map (.text (String.ofList s) :: ·) := by
  have h := tokens_cons '"' l
  rw [if_neg (by decide), if_neg (by decide), if_pos rfl] at h
  exact h

theorem tokens_literal (t : String) (rest : List Char) :
    tokens (literal t ++ rest) = (tokens rest).map (.text t :: ·) := by
  have hread := readLiteral_of_spells (spells_escaped t.toList) rest
  rw [literal, List.cons_append, List.cons_append, List.append_assoc, List.singleton_append,
    tokens_quote, hread]
  simp only [String.ofList_toList]

/-- A word is read up to what ends it. -/
theorem tokens_word {w : String} (hw : IsWord w) {rest : List Char}
    (hrest : ∀ c, rest.head? = some c → inWord c = false) :
    tokens (w.toList ++ rest) = (tokens rest).map (.word w :: ·) := by
  have hstop : rest.takeWhile inWord = [] ∧ rest.dropWhile inWord = rest := by
    cases rest with
    | nil => exact ⟨rfl, rfl⟩
    | cons d r =>
      have hd := hrest d rfl
      exact ⟨List.takeWhile_cons_of_neg (by simp [hd]), List.dropWhile_cons_of_neg (by simp [hd])⟩
  obtain ⟨c, cs, hcs⟩ := List.exists_cons_of_ne_nil hw.nonempty
  have hall : ∀ d ∈ cs, inWord d = true := fun d hd => hw.inWord d (by simp [hcs, hd])
  obtain ⟨hblank, hquote, hsemi⟩ := inWord_eq_true_iff.mp (hw.inWord c (by simp [hcs]))
  rw [hcs, List.cons_append, tokens_cons, if_neg (by simp [hblank]), if_neg hsemi, if_neg hquote,
    List.takeWhile_append_of_pos hall, List.dropWhile_append_of_pos hall, hstop.1, hstop.2,
    List.append_nil, ← hcs, String.ofList_toList]

theorem tokens_print {t : Token} (ht : t.Printable) {rest : List Char}
    (hrest : ∀ c, rest.head? = some c → inWord c = false) :
    tokens (t.print ++ rest) = (tokens rest).map (t :: ·) := by
  cases t with
  | word w => exact tokens_word ht hrest
  | text t => exact tokens_literal t rest

/-- Operands end the word before them, if there are any. -/
theorem head?_operands (operands : List (List Char)) (c : Char)
    (h : (operands.flatMap (' ' :: ·)).head? = some c) : inWord c = false := by
  cases operands with
  | nil => simp at h
  | cons o os =>
    obtain rfl : ' ' = c := by simpa using h
    decide

theorem tokens_operands {ts : List Token} (h : ∀ t ∈ ts, t.Printable) :
    tokens ((ts.map Token.print).flatMap (' ' :: ·)) = .ok ts := by
  induction ts with
  | nil => exact tokens_nil
  | cons t ts ih =>
    rw [List.map_cons, List.flatMap_cons, List.cons_append, tokens_blank (by decide),
      tokens_print (h t List.mem_cons_self) (head?_operands _),
      ih fun u hu => h u (List.mem_cons_of_mem _ hu)]
    rfl

theorem tokens_printLine {name : String} (hname : IsWord name) {ts : List Token}
    (h : ∀ t ∈ ts, t.Printable) :
    tokens (printLine name (ts.map Token.print)) = .ok (.word name :: ts) := by
  rw [printLine, tokens_word hname (head?_operands _), tokens_operands h]
  rfl

/-! ## The ends of a printed line -/

theorem IsWord.flush {w : String} (hw : IsWord w) : Flush w.toList := by
  constructor
  · exact ⟨w.toList.head hw.nonempty, List.head?_eq_some_head hw.nonempty,
      (inWord_eq_true_iff.mp (hw.inWord _ (List.head_mem hw.nonempty))).1⟩
  · exact ⟨w.toList.getLast hw.nonempty, List.getLast?_eq_some_getLast hw.nonempty,
      (inWord_eq_true_iff.mp (hw.inWord _ (List.getLast_mem hw.nonempty))).1⟩

theorem Token.Printable.flush {t : Token} (ht : t.Printable) : Flush t.print := by
  cases t with
  | word w => exact IsWord.flush ht
  | text t =>
    refine ⟨⟨'"', rfl, by decide⟩, ⟨'"', ?_, by decide⟩⟩
    rw [Token.print, literal, List.getLast?_append]
    rfl

theorem Token.Printable.newline_not_mem {t : Token} (ht : t.Printable) : '\n' ∉ t.print := by
  cases t with
  | word w =>
    intro hmem
    exact absurd (ht.inWord _ hmem) (by decide)
  | text t =>
    have hplain : '\n' ∉ t.toList.flatMap escapeChar := by
      rw [List.mem_flatMap]
      rintro ⟨c, _, hc⟩
      exact newline_not_mem_escapeChar c hc
    simpa [Token.print, literal] using hplain

theorem flush_operands {a : List Char} (ha : Flush a) {ts : List Token}
    (h : ∀ t ∈ ts, t.Printable) : Flush (a ++ (ts.map Token.print).flatMap (' ' :: ·)) := by
  induction ts generalizing a with
  | nil => simpa using ha
  | cons t ts ih =>
    have hnext := ih (ha.append [' '] (h t List.mem_cons_self).flush)
      fun u hu => h u (List.mem_cons_of_mem _ hu)
    simpa using hnext

theorem newline_not_mem_printLine {name : String} (hname : IsWord name) {ts : List Token}
    (h : ∀ t ∈ ts, t.Printable) : '\n' ∉ printLine name (ts.map Token.print) := by
  have hname' : '\n' ∉ (Token.word name).print := Token.Printable.newline_not_mem hname
  rw [printLine, List.mem_append, not_or]
  refine ⟨hname', ?_⟩
  rw [List.mem_flatMap]
  rintro ⟨o, ho, hmem⟩
  obtain ⟨t, ht, rfl⟩ := List.mem_map.mp ho
  rcases List.mem_cons.mp hmem with heq | hmem
  · exact absurd heq (by decide)
  · exact (h t ht).newline_not_mem hmem

/-! ## Statements -/

/-- The kind of instruction that a statement becomes. A raw word is of no kind. -/
def kindOf : Statement → Option Opcode
  | .setText _ => some .setText
  | .removeSelfAndNextSiblings => some .removeSelfAndNextSiblings
  | .replaceWith => some .replaceWith
  | .setAttribute _ _ => some .setAttribute
  | .removeAttribute _ => some .removeAttribute
  | .pushFirstChild => some .pushFirstChild
  | .popPushNextSibling => some .popPushNextSibling
  | .pop => some .pop
  | .appendChild => some .appendChild
  | .createText _ => some .createText
  | .createElement _ => some .createElement
  | .newListener _ _ _ => some .newListener
  | .updateListener _ _ _ => some .updateListener
  | .removeListener _ => some .removeListener
  | .addString _ _ => some .addString
  | .raw _ => none

/-- The name of a statement on its line. -/
def nameOf (s : Statement) : String :=
  (kindOf s).elim rawName Opcode.mnemonic

/-- A number as a token. -/
def numberToken (w : UInt32) : Token :=
  .word (Text.Numeral.decimal w.toNat)

/-- The operands of a statement on its line. -/
def operandsOf : Statement → List Token
  | .setText text | .createText text => [.text text]
  | .setAttribute name value => [.text name, .text value]
  | .removeAttribute name => [.text name]
  | .createElement tag => [.text tag]
  | .newListener event a b | .updateListener event a b =>
    [.text event, numberToken a, numberToken b]
  | .removeListener event => [.text event]
  | .addString text id => [.text text, numberToken id]
  | .raw word => [numberToken word]
  | .removeSelfAndNextSiblings | .replaceWith | .pushFirstChild | .popPushNextSibling | .pop
  | .appendChild => []

theorem printStatement_eq (s : Statement) :
    printStatement s = printLine (nameOf s) ((operandsOf s).map Token.print) := by
  cases s <;> rfl

theorem isWord_nameOf (s : Statement) : IsWord (nameOf s) := by
  have hop : ∀ op : Opcode, IsWord op.mnemonic := by
    intro op
    have hne : op.mnemonic.toList ≠ [] := by
      cases op <;> exact List.cons_ne_nil _ _
    have hall : op.mnemonic.toList.all inWord = true := by
      cases op <;> rfl
    exact ⟨hne, List.all_eq_true.mp hall⟩
  rw [nameOf]
  cases kindOf s with
  | none => exact ⟨List.cons_ne_nil _ _, List.all_eq_true.mp rfl⟩
  | some op => exact hop op

theorem isWord_decimal (n : Nat) : IsWord (Text.Numeral.decimal n) := by
  refine ⟨Text.Numeral.decimal_ne_nil n, fun c hc => ?_⟩
  have hdigit := Text.Numeral.isDigit_of_mem_decimal hc
  have hblank : isBlank c = false := by
    obtain ⟨hlow, hhigh⟩ : 48 ≤ c.toNat ∧ c.toNat ≤ 57 := by
      simp only [Char.isDigit, Bool.and_eq_true, decide_eq_true_eq, ge_iff_le,
        UInt32.le_iff_toNat_le] at hdigit
      exact hdigit
    grind [isBlank]
  rw [inWord_eq_true_iff]
  refine ⟨hblank, ?_, ?_⟩ <;> rintro rfl <;> exact absurd hdigit (by decide)

theorem printable_of_mem_operandsOf {s : Statement} {t : Token} (h : t ∈ operandsOf s) :
    t.Printable := by
  have hnumber : ∀ w, (numberToken w).Printable := fun w => isWord_decimal w.toNat
  have htext : ∀ t, (Token.text t).Printable := fun _ => trivial
  cases s <;> simp only [operandsOf, List.mem_cons, List.not_mem_nil, or_false] at h <;> grind

/-- A name other than that of the raw word is that of a kind, and the number of operands is checked
before they are read. -/
theorem statement_mnemonic {op : Opcode} {args : List Token}
    (h : args.length = operandCount op) : statement op.mnemonic args = statementOf op args := by
  have hraw : op.mnemonic ≠ rawName := by
    cases op <;> decide
  simp only [statement, if_neg hraw, Opcode.ofMnemonic?_mnemonic, expectCount, if_pos h]
  rfl

theorem statement_raw (w : UInt32) : statement rawName [numberToken w] = .ok (.raw w) := by
  have hw : numberAt [numberToken w] 0 = .ok w := by
    simp [numberAt, numberToken, Text.Numeral.word?_decimal]
  simp only [statement, if_pos, hw]
  rfl

theorem length_operandsOf {s : Statement} {op : Opcode} (h : kindOf s = some op) :
    (operandsOf s).length = operandCount op := by
  cases s <;> cases h <;> rfl

theorem statementOf_operandsOf {s : Statement} {op : Opcode} (h : kindOf s = some op) :
    statementOf op (operandsOf s) = .ok s := by
  cases s <;> cases h <;>
    simp [statementOf, operandsOf, textAt, numberAt, numberToken, Text.Numeral.word?_decimal, pure,
      Except.pure, bind, Except.bind]

theorem statement_nameOf (s : Statement) : statement (nameOf s) (operandsOf s) = .ok s := by
  rw [nameOf]
  cases hk : kindOf s with
  | none =>
    obtain ⟨w, rfl⟩ : ∃ w, s = .raw w := by
      cases s <;> first | exact ⟨_, rfl⟩ | cases hk
    exact statement_raw w
  | some op => exact (statement_mnemonic (length_operandsOf hk)).trans (statementOf_operandsOf hk)

theorem readLine_printStatement (s : Statement) : readLine (printStatement s) = .ok s := by
  rw [readLine, printStatement_eq,
    tokens_printLine (isWord_nameOf s) fun t ht => printable_of_mem_operandsOf ht]
  exact statement_nameOf s

end Source

end TreeEdit
