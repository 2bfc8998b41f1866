import Mathlib.Algebra.Ring.Nat
import TreeEdit.Machine.StringTable
import TreeEdit.Binary.Memory
import TreeEdit.Program.Statement
import TreeEdit.Proofs.OrderedMap
import TreeEdit.Proofs.Steps
import TreeEdit.Proofs.Text.Utf8

/-!
# What code says

Code names texts by their places in the memory and by string ids, and which text an id stands for
changes as the code is run. `Denotes` says which statements a list of instructions stands for when
it is read with a string table in hand; it does not mention how the code came about. The main result
is that a builder emits what it is asked for, whatever the table holds at first (`says_emitAll`):
each id that it emits stands at that place for the text that was meant, although ids may be taken
from one text for another in between.

The builder knows less than the table holds: `Builder.Agrees` only asks that the ids it remembers
are right. That an id given to a new text takes no remembered one away is `Builder.Orderly`.
-/

namespace TreeEdit

open Binary (Bytes)

/-! ## Code and statements -/

/-- An instruction stands for a statement, if string ids stand for what the table `t` says. -/
inductive Means (mem : Bytes) (t : StringTable) : Instr → Statement → Prop
  | setText {ptr len : UInt32} {text : String} (h : Binary.text mem ptr len = .ok text) :
      Means mem t (.setText ptr len) (.setText text)
  | removeSelfAndNextSiblings : Means mem t .removeSelfAndNextSiblings .removeSelfAndNextSiblings
  | replaceWith : Means mem t .replaceWith .replaceWith
  | setAttribute {n v : UInt32} {name value : String} (hn : t.get n = .ok name)
      (hv : t.get v = .ok value) : Means mem t (.setAttribute n v) (.setAttribute name value)
  | removeAttribute {n : UInt32} {name : String} (hn : t.get n = .ok name) :
      Means mem t (.removeAttribute n) (.removeAttribute name)
  | pushFirstChild : Means mem t .pushFirstChild .pushFirstChild
  | popPushNextSibling : Means mem t .popPushNextSibling .popPushNextSibling
  | pop : Means mem t .pop .pop
  | appendChild : Means mem t .appendChild .appendChild
  | createText {ptr len : UInt32} {text : String} (h : Binary.text mem ptr len = .ok text) :
      Means mem t (.createText ptr len) (.createText text)
  | createElement {n : UInt32} {tag : String} (hn : t.get n = .ok tag) :
      Means mem t (.createElement n) (.createElement tag)
  | newListener {n : UInt32} {event : String} (a b : UInt32) (hn : t.get n = .ok event) :
      Means mem t (.newListener n a b) (.newListener event a b)
  | updateListener {n : UInt32} {event : String} (a b : UInt32) (hn : t.get n = .ok event) :
      Means mem t (.updateListener n a b) (.updateListener event a b)
  | removeListener {n : UInt32} {event : String} (hn : t.get n = .ok event) :
      Means mem t (.removeListener n) (.removeListener event)

/-- Code stands for statements when it is read with the table `t`, and leaves the table `t'`. What
stores a text says nothing itself. -/
inductive Denotes (mem : Bytes) :
    StringTable → List Instr → List Statement → StringTable → Prop
  | nil (t : StringTable) : Denotes mem t [] [] t
  | entry {t t' : StringTable} {ptr len id : UInt32} {text : String} {is : List Instr}
      {sts : List Statement} (h : Binary.text mem ptr len = .ok text)
      (rest : Denotes mem (t.add text id) is sts t') :
      Denotes mem t (.addString ptr len id :: is) sts t'
  | instr {t t' : StringTable} {i : Instr} {st : Statement} {is : List Instr}
      {sts : List Statement} (h : Means mem t i st) (rest : Denotes mem t is sts t') :
      Denotes mem t (i :: is) (st :: sts) t'

theorem Denotes.append {mem : Bytes} {t t' t'' : StringTable} {is is' : List Instr}
    {sts sts' : List Statement} (h : Denotes mem t is sts t') (h' : Denotes mem t' is' sts' t'') :
    Denotes mem t (is ++ is') (sts ++ sts') t'' := by
  induction h with
  | nil => exact h'
  | entry ht _ ih => exact .entry ht (ih h')
  | instr hm _ ih => exact .instr hm (ih h')

/-! ## What a builder knows -/

namespace Builder

/-- The texts that the builder knows are in the table under their ids. -/
def Agrees (b : Builder) (t : StringTable) : Prop :=
  ∀ text id, b.ids.get? text = some id → t.get id = .ok text

/-- The next new id is not in use. -/
def Orderly (b : Builder) : Prop :=
  ∀ text id next, b.ids.get? text = some id → b.nextId = some next → id < next

/-- From `b` to `b'`, code was emitted that stands for `sts`. -/
structure Says (b b' : Builder) (sts : List Statement) : Prop where
  orderly : b'.Orderly
  data : b.data.toList <+: b'.data.toList
  code : ∃ is, b'.code.toList = b.code.toList ++ is.flatMap Instr.encode ∧
    ∀ mem t, b'.data.toList <+: mem → mem.length < 2 ^ 32 → b.Agrees t →
      ∃ t', Denotes mem t is sts t' ∧ b'.Agrees t'

variable {b b' b'' : Builder} {sts sts' : List Statement}

theorem Says.refl (hb : b.Orderly) : Says b b [] := by
  refine ⟨hb, List.prefix_refl _, [], (List.append_nil _).symm, fun mem t _ _ ht => ?_⟩
  exact ⟨t, .nil t, ht⟩

theorem Says.trans (h : Says b b' sts) (h' : Says b' b'' sts') : Says b b'' (sts ++ sts') := by
  obtain ⟨is, hcode, his⟩ := h.code
  obtain ⟨is', hcode', his'⟩ := h'.code
  refine ⟨h'.orderly, h.data.trans h'.data, is ++ is', ?_, fun mem t hmem hlen ht => ?_⟩
  · rw [hcode', hcode, List.append_assoc, List.flatMap_append]
  · obtain ⟨t₁, hd, ht₁⟩ := his mem t (h'.data.trans hmem) hlen ht
    obtain ⟨t₂, hd', ht₂⟩ := his' mem t₁ hmem hlen ht₁
    exact ⟨t₂, hd.append hd', ht₂⟩

/-! ## Texts in the memory -/

/-- A text is found where its bytes are. -/
theorem text_of_append {before after : Bytes} {text : String} {ptr len : UInt32}
    (hptr : ptr.toNat = before.length) (hlen : len.toNat = (Text.Utf8.encode text).length) :
    Binary.text (before ++ (Text.Utf8.encode text ++ after)) ptr len = .ok text := by
  have hle : before.length + (Text.Utf8.encode text).length
      ≤ (before ++ (Text.Utf8.encode text ++ after)).length := by
    rw [List.length_append, List.length_append]
    omega
  rw [Binary.text, Binary.slice, hptr, hlen, if_pos hle, List.drop_left, List.take_left]
  show Except.ok (Text.Utf8.decodeLossy (Text.Utf8.encode text)) = _
  rw [Text.Utf8.decodeLossy_encode]

/-- A text that is stored at the end of a zone is found there, once the zone lies at the start of
a memory. -/
theorem text_of_addPadded {z : Binary.Zone} {text : String} {mem : Bytes}
    (hmem : (z.addPadded (Text.Utf8.encode text)).toList <+: mem) (hlen : mem.length < 2 ^ 32) :
    Binary.text mem z.offset (Text.Utf8.encode text).length.toUInt32 = .ok text := by
  obtain ⟨rest, rfl⟩ := hmem
  rw [Binary.Zone.toList_addPadded, Binary.padded] at hlen ⊢
  rw [List.length_append, List.length_append, List.length_append] at hlen
  -- neither the place nor the length wraps, as both lie in the memory
  have hstart : z.offset.toNat = z.toList.length := by
    rw [Binary.Zone.offset, Binary.Zone.length_eq, Nat.toUInt32_eq, UInt32.toNat_ofNat']
    omega
  have hcount : (Text.Utf8.encode text).length.toUInt32.toNat = (Text.Utf8.encode text).length := by
    rw [Nat.toUInt32_eq, UInt32.toNat_ofNat']
    omega
  rw [List.append_assoc, List.append_assoc]
  exact text_of_append hstart hcount

/-! ## Single emissions -/

/-- The builder after an instruction. -/
def instructed (b : Builder) (i : Instr) : Builder :=
  { b with code := b.code.addWords i.words, count := b.count + 1 }

/-- The builder after a text is stored. -/
def stored (b : Builder) (text : String) : Builder :=
  { b with data := b.data.addPadded (Text.Utf8.encode text) }

theorem emitInstr_eq (i : Instr) : emitInstr i b = .ok () (b.instructed i) := rfl

theorem intern_eq (text : String) : intern text b
    = .ok (b.data.offset, (Text.Utf8.encode text).length.toUInt32) (b.stored text) := rfl

theorem says_stored (hb : b.Orderly) (text : String) : Says b (b.stored text) [] := by
  refine ⟨hb, ?_, [], (List.append_nil _).symm, fun mem t _ _ ht => ⟨t, .nil t, ht⟩⟩
  rw [stored, Binary.Zone.toList_addPadded]
  exact List.prefix_append _ _

theorem toList_code_instructed (i : Instr) :
    (b.instructed i).code.toList = b.code.toList ++ [i].flatMap Instr.encode := by
  rw [instructed, Binary.Zone.toList_addWords, List.flatMap_singleton]
  rfl

theorem says_instructed (hb : b.Orderly) {i : Instr} {st : Statement}
    (h : ∀ mem t, b.data.toList <+: mem → mem.length < 2 ^ 32 → b.Agrees t → Means mem t i st) :
    Says b (b.instructed i) [st] := by
  refine ⟨hb, List.prefix_refl _, [i], toList_code_instructed i, fun mem t hmem hlen ht => ?_⟩
  exact ⟨t, .instr (h mem t hmem hlen ht) (.nil t), ht⟩

/-! ## String ids -/

theorem nextAfter_some {id next next' : UInt32} (h : nextAfter id (some next) = some next') :
    id < next' ∧ next ≤ next' := by
  rw [nextAfter] at h
  split at h
  · rename_i hle
    rw [successor?] at h
    split at h
    · cases h
    · rename_i hmax
      cases h
      have hid := id.toNat_lt
      have hsucc : (id + 1).toNat = id.toNat + 1 := by
        rw [UInt32.toNat_add]
        show (id.toNat + 1) % 2 ^ 32 = _
        have hne : id.toNat ≠ 2 ^ 32 - 1 := hmax
        omega
      have hlt : id < id + 1 := by
        rw [UInt32.lt_iff_toNat_lt, hsucc]
        exact Nat.lt_succ_self _
      exact ⟨hlt, UInt32.le_of_lt (UInt32.lt_of_le_of_lt hle hlt)⟩
  · rename_i hlt
    cases h
    exact ⟨UInt32.not_le.mp hlt, UInt32.le_refl _⟩

/-- Of the ids in use before, only `id` itself goes to another text. -/
theorem get?_assign {text text' : String} {id id' : UInt32} :
    (assign text id b).ids.get? text' = some id' ↔
      if text = text' then id = id' else b.ids.get? text' = some id' ∧ id' ≠ id := by
  rw [assign, OrderedMap.get?_put]
  split
  · exact Option.some_inj
  · rw [OrderedMap.get?_filter_eq_some_iff, decide_eq_true_iff]

theorem assign_orderly (hb : b.Orderly) (text : String) (id : UInt32) :
    (assign text id b).Orderly := by
  intro text' id' next' hid hnext
  have hnext : nextAfter id b.nextId = some next' := hnext
  cases hn : b.nextId with
  | none =>
    rw [hn] at hnext
    cases hnext
  | some next =>
    rw [hn] at hnext
    obtain ⟨hlt, hle⟩ := nextAfter_some hnext
    rw [get?_assign] at hid
    split at hid
    · exact hid ▸ hlt
    · exact UInt32.lt_of_lt_of_le (hb text' id' next hid.1 hn) hle

theorem agrees_assign {t : StringTable} (ht : b.Agrees t) (text : String) (id : UInt32) :
    (assign text id b).Agrees (t.add text id) := by
  intro text' id' hid
  rw [StringTable.get_add]
  rw [get?_assign] at hid
  split at hid
  · rename_i htext
    rw [if_pos hid, htext]
  · rw [if_neg (Ne.symm hid.2)]
    exact ht text' id' hid.1

/-- The builder after an explicit id. -/
def named (b : Builder) (text : String) (id : UInt32) : Builder :=
  (assign text id (b.stored text)).instructed
    (.addString b.data.offset (Text.Utf8.encode text).length.toUInt32 id)

theorem addString_eq (text : String) (id : UInt32) :
    addString text id b = .ok () (b.named text id) := rfl

theorem ids_named (text : String) (id : UInt32) :
    (b.named text id).ids = (assign text id b).ids := rfl

theorem data_named (text : String) (id : UInt32) :
    (b.named text id).data = b.data.addPadded (Text.Utf8.encode text) := rfl

theorem nextId_named (text : String) (id : UInt32) :
    (b.named text id).nextId = (assign text id b).nextId := rfl

theorem says_named (hb : b.Orderly) (text : String) (id : UInt32) :
    Says b (b.named text id) [] := by
  refine ⟨?_, (says_stored hb text).data, _, toList_code_instructed _, fun mem t hmem hlen ht => ?_⟩
  · unfold Orderly
    rw [ids_named, nextId_named]
    exact assign_orderly hb text id
  · rw [data_named] at hmem
    have hentry : Denotes mem t
        [.addString b.data.offset (Text.Utf8.encode text).length.toUInt32 id] []
        (t.add text id) := .entry (text_of_addPadded hmem hlen) (.nil _)
    refine ⟨t.add text id, hentry, ?_⟩
    unfold Agrees
    rw [ids_named]
    exact agrees_assign ht text id

/-- The builder still knows what it knew. -/
def Remembers (b b' : Builder) : Prop :=
  ∀ text id, b.ids.get? text = some id → b'.ids.get? text = some id

theorem stringId_ends (hb : b.Orderly) (text : String) :
    Step.Ends (stringId text) b
      (fun id b' => Says b b' [] ∧ b'.ids.get? text = some id ∧ Remembers b b')
      fun _ b' => b' = b := by
  rw [stringId, Step.ends_bind, Step.ends_get]
  split
  · rename_i id hid
    exact ⟨.refl hb, hid, fun _ _ h => h⟩
  · rename_i hnone
    rw [Step.ends_bind, Step.ends_get]
    split
    · rfl
    · rename_i id hnext
      rw [Step.ends_bind, Step.Ends, addString_eq]
      refine ⟨says_named hb text id, ?_, fun text' id' hid => ?_⟩
      · rw [ids_named, get?_assign, if_pos rfl]
      · -- the new id is above all that are in use, so it takes none away
        rw [ids_named, get?_assign, if_neg]
        · exact ⟨hid, UInt32.ne_of_lt (hb text' id' id hid hnext)⟩
        · rintro rfl
          rw [hnone] at hid
          cases hid

end Builder

/-! ## Statements -/

namespace Statement

open Builder

variable {b : Builder}

/-- What a statement says to the document: nothing, if it only gives a text an id. -/
def spoken : Statement → List Statement
  | addString _ _ => []
  | st => [st]

/-- A statement that names one text by its id. -/
theorem naming_ends (hb : b.Orderly) (text : String) {i : UInt32 → Instr} {st : Statement}
    (h : ∀ mem t id, t.get id = .ok text → Means mem t (i id) st) :
    Step.Ends (do emitInstr (i (← stringId text)) : Emission Unit) b (fun _ b' => Says b b' [st])
      fun _ b' => Says b b' [] := by
  rw [Step.ends_bind]
  refine (stringId_ends hb text).mono (fun id b₁ h₁ => ?_) fun _ b₁ h₁ => ?_
  · obtain ⟨hsay, hid, -⟩ := h₁
    rw [Step.Ends, emitInstr_eq]
    exact hsay.trans (says_instructed hsay.orderly fun mem t _ _ ht => h mem t id (ht text id hid))
  · rw [h₁]
    exact .refl hb

/-- A statement that stores a text and names it by its place. -/
theorem placing_ends (hb : b.Orderly) (text : String) {i : UInt32 → UInt32 → Instr}
    {st : Statement}
    (h : ∀ mem t ptr len, Binary.text mem ptr len = .ok text → Means mem t (i ptr len) st) :
    Step.Ends (do
      let (ptr, len) ← intern text
      emitInstr (i ptr len) : Emission Unit) b (fun _ b' => Says b b' [st])
      fun _ b' => Says b b' [] := by
  rw [Step.ends_bind, Step.Ends, intern_eq]
  have hsay := says_stored hb text
  exact hsay.trans (says_instructed hsay.orderly fun mem t hmem hlen _ =>
    h mem t _ _ (text_of_addPadded hmem hlen))

/-- Emitting a statement, a raw word excepted, emits code that stands for it. If it fails, the code
that it leaves says nothing. -/
theorem emit_ends (hb : b.Orderly) {st : Statement} (hraw : ∀ w, st ≠ .raw w) :
    Step.Ends st.emit b (fun _ b' => Says b b' st.spoken) fun _ b' => Says b b' [] := by
  cases st with
  | setText text => exact placing_ends hb text fun _ _ _ _ h => .setText h
  | createText text => exact placing_ends hb text fun _ _ _ _ h => .createText h
  | removeAttribute name => exact naming_ends hb name fun _ _ _ h => .removeAttribute h
  | createElement tag => exact naming_ends hb tag fun _ _ _ h => .createElement h
  | newListener event a b => exact naming_ends hb event fun _ _ _ h => .newListener a b h
  | updateListener event a b => exact naming_ends hb event fun _ _ _ h => .updateListener a b h
  | removeListener event => exact naming_ends hb event fun _ _ _ h => .removeListener h
  | removeSelfAndNextSiblings =>
    exact says_instructed hb fun _ _ _ _ _ => .removeSelfAndNextSiblings
  | replaceWith => exact says_instructed hb fun _ _ _ _ _ => .replaceWith
  | pushFirstChild => exact says_instructed hb fun _ _ _ _ _ => .pushFirstChild
  | popPushNextSibling => exact says_instructed hb fun _ _ _ _ _ => .popPushNextSibling
  | pop => exact says_instructed hb fun _ _ _ _ _ => .pop
  | appendChild => exact says_instructed hb fun _ _ _ _ _ => .appendChild
  | addString text id => exact says_named hb text id
  | raw w => exact absurd rfl (hraw w)
  | setAttribute name value =>
    rw [emit, Step.ends_bind]
    have still {b' : Builder} (h : b' = b) : Says b b' [] := by
      rw [h]
      exact .refl hb
    refine (stringId_ends hb name).mono (fun n b₁ h₁ => ?_) fun _ b₁ h₁ => still h₁
    obtain ⟨hsay₁, hn, -⟩ := h₁
    rw [Step.ends_bind]
    refine (stringId_ends hsay₁.orderly value).mono (fun v b₂ h₂ => ?_)
      fun _ b₂ h₂ => h₂ ▸ hsay₁
    -- giving the value an id has left the one of the name in place
    obtain ⟨hsay₂, hv, hkeeps⟩ := h₂
    rw [Step.Ends, emitInstr_eq]
    have hboth := hsay₁.trans hsay₂
    exact hboth.trans (says_instructed hboth.orderly fun mem t _ _ ht =>
      .setAttribute (ht name n (hkeeps name n hn)) (ht value v hv))

end Statement

/-! ## Whole programs -/

/-- What a builder is asked for: the id of a text, or a statement. -/
inductive Request
  | stringId (text : String)
  | statement (st : Statement)

namespace Request

open Builder

variable {b : Builder}

/-- Does what is asked for. -/
def emit : Request → Emission Unit
  | stringId text => do let _ ← Builder.stringId text
  | statement st => st.emit

/-- What a request says to the document. -/
def spoken : Request → List Statement
  | stringId _ => []
  | statement st => st.spoken

/-- Whether a request goes by texts alone. -/
def Textual (r : Request) : Prop :=
  ∀ w, r ≠ statement (.raw w)

/-- Makes requests one after another, going on after failures. The answer is the requests that
succeeded, and the builder. -/
def emitAll : List Request → Builder → List Request × Builder
  | [], b => ([], b)
  | r :: rs, b =>
    match r.emit b with
    | .ok _ b' => (r :: (emitAll rs b').1, (emitAll rs b').2)
    | .error _ b' => emitAll rs b'

theorem emit_ends (hb : b.Orderly) {r : Request} (hr : r.Textual) :
    Step.Ends r.emit b (fun _ b' => Says b b' r.spoken) fun _ b' => Says b b' [] := by
  cases r with
  | stringId text =>
    rw [emit, Step.ends_bind]
    refine (stringId_ends hb text).mono (fun id b' h => h.1) fun _ b' h => ?_
    rw [h]
    exact .refl hb
  | statement st =>
    refine st.emit_ends hb fun w hw => hr w ?_
    rw [hw]

/-- The code for some requests stands for those that succeeded. -/
theorem says_emitAll (hb : b.Orderly) {rs : List Request} (hrs : ∀ r ∈ rs, r.Textual) :
    Says b (emitAll rs b).2 ((emitAll rs b).1.flatMap spoken) := by
  -- on the requests, from any builder: the ids that it holds carry over to the rest
  induction rs generalizing b with
  | nil => exact .refl hb
  | cons r rs ih =>
    have hr := Step.ends_iff.mp (emit_ends hb (hrs r List.mem_cons_self))
    have hrest (b' : Builder) (hb' : b'.Orderly) :=
      ih hb' fun r hr => hrs r (List.mem_cons_of_mem _ hr)
    rw [emitAll]
    split
    · rename_i a b' hok
      have hsay := hr.1 a b' hok
      exact hsay.trans (hrest b' hsay.orderly)
    · rename_i e b' herr
      have hsay := hr.2 e b' herr
      exact hsay.trans (hrest b' hsay.orderly)

end Request

theorem Builder.startingAt_orderly (first : UInt32) : (Builder.startingAt first).Orderly := by
  intro text id next hid
  cases hid

theorem Builder.startingAt_agrees (first : UInt32) (t : StringTable) :
    (Builder.startingAt first).Agrees t := by
  intro text id hid
  cases hid

end TreeEdit
