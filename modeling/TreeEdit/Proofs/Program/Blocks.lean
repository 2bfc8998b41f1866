import TreeEdit.Document.Markup
import TreeEdit.Proofs.OrderedMap
import TreeEdit.Proofs.Program.Application

/-!
# Programs that describe trees

A `Block` describes what an element is to be given: an element with blocks of its own, a text, or an
attribute. `Block.statements` says how to build that with a stack: an element is made, filled while
it is on top of the stack, and then added to the one below it. `Block.trees` and `Block.settings`
say what the blocks describe, with no stack and no document in them.

The program of some blocks has code for their statements whenever it fits into a memory
(`denotes_program`). Emitting it never fails there: string ids only run out after more instructions
than a memory holds (`Builder.Thrifty`).
-/

namespace TreeEdit

open Binary (Cursor)
open OrderedMap (condense)

/-- A part of the description of an element. -/
inductive Block
  /-- An element among its children, with what it is given itself. -/
  | elem (tag : String) (kids : List Block)
  /-- A text among its children. -/
  | text (text : String)
  /-- One of its attributes. -/
  | attr (name value : String)
  /-- A look at its first child, which changes nothing. -/
  | visit
  deriving Repr, Inhabited

namespace Block

/-! ## What blocks describe -/

/-- The attributes that a block sets on the element around it. -/
def settings : Block → List (String × String)
  | attr name value => [(name, value)]
  | elem _ _ | text _ | visit => []

/-- The attributes that blocks set, one after another. -/
def settingsAll (bs : List Block) : List (String × String) :=
  bs.flatMap settings

mutual

/-- The trees that a block adds to the element around it. An element has each of its attributes
once, where it was set first, with the value that was set last. -/
def trees : Block → List Tree
  | elem tag kids => [.element tag (condense (settingsAll kids)) (treesAll kids)]
  | text t => [.text t]
  | attr _ _ | visit => []

/-- The trees that blocks add, one after another. -/
def treesAll : List Block → List Tree
  | [] => []
  | b :: bs => trees b ++ treesAll bs

end

/-! ## Their code -/

mutual

/-- How to build what a block describes, on top of a stack. -/
def statements : Block → List Statement
  | elem tag kids => .createElement tag :: (statementsAll kids ++ [.appendChild])
  | text t => [.createText t, .appendChild]
  | attr name value => [.setAttribute name value]
  | visit => [.pushFirstChild, .pop]

/-- How to build what blocks describe, one after another. -/
def statementsAll : List Block → List Statement
  | [] => []
  | b :: bs => statements b ++ statementsAll bs

end

/-- Emits the code for blocks. -/
def compile (bs : List Block) : Emission Unit :=
  (statementsAll bs).forM Statement.emit

/-- The program for blocks. -/
def program (bs : List Block) : Builder :=
  Step.after (compile bs) .empty

end Block

/-- A statement that names all its texts by itself: it gives no id, and is no raw word. -/
def Statement.Plain (st : Statement) : Prop :=
  (∀ w, st ≠ .raw w) ∧ ∀ text id, st ≠ .addString text id

mutual

theorem Block.plain_statements (b : Block) : ∀ st ∈ b.statements, st.Plain := by
  cases b with
  | elem tag kids =>
    intro st hst
    rw [Block.statements, List.mem_cons, List.mem_append, List.mem_singleton] at hst
    rcases hst with rfl | hst | rfl
    · exact ⟨nofun, nofun⟩
    · exact Block.plain_statementsAll kids st hst
    · exact ⟨nofun, nofun⟩
  | text t => simp [Block.statements, Statement.Plain]
  | attr name value => simp [Block.statements, Statement.Plain]
  | visit => simp [Block.statements, Statement.Plain]

theorem Block.plain_statementsAll (bs : List Block) :
    ∀ st ∈ Block.statementsAll bs, st.Plain := by
  cases bs with
  | nil => exact nofun
  | cons b bs =>
    intro st hst
    rw [Block.statementsAll, List.mem_append] at hst
    rcases hst with hst | hst
    · exact Block.plain_statements b st hst
    · exact Block.plain_statementsAll bs st hst

end

/-! ## Ids never run out -/

namespace Builder

variable {b : Builder}

/-- The number of ids that are not new any more. -/
def used (b : Builder) : Nat :=
  (b.nextId.map UInt32.toNat).getD (2 ^ 32)

/-- Every id was paid for with code. -/
def Thrifty (b : Builder) : Prop :=
  b.used ≤ b.code.toList.length

/-- The code alone is too long for a memory. -/
def Overfull (b : Builder) : Prop :=
  2 ^ 32 ≤ b.code.toList.length

theorem length_code_instructed (i : Instr) :
    (b.instructed i).code.toList.length = b.code.toList.length + i.encodedLength := by
  rw [toList_code_instructed, List.length_append, List.flatMap_singleton, Instr.length_encode]

theorem Thrifty.instructed (h : b.Thrifty) (i : Instr) : (b.instructed i).Thrifty := by
  show b.used ≤ _
  rw [length_code_instructed]
  exact Nat.le_add_right_of_le h

/-- Giving the next new id takes an instruction. -/
theorem Thrifty.named (h : b.Thrifty) {id : UInt32} (hid : b.nextId = some id) (text : String) :
    (b.named text id).Thrifty := by
  obtain ⟨i, hi⟩ : ∃ i, b.named text id = (assign text id (b.stored text)).instructed i :=
    ⟨_, rfl⟩
  have hpos := i.encodedLength_pos
  have hused : (b.named text id).used ≤ id.toNat + 1 := by
    rw [used, nextId_named, assign, hid]
    show (Option.map UInt32.toNat (if id ≤ id then successor? id else some id)).getD _ ≤ _
    rw [if_pos (UInt32.le_refl id), successor?]
    split
    · rename_i hmax
      rw [hmax]
      exact Nat.le_refl _
    · show (id + 1).toNat ≤ _
      rw [UInt32.toNat_add]
      exact Nat.mod_le _ _
  have hthrifty : id.toNat ≤ b.code.toList.length := by
    rwa [Thrifty, used, hid] at h
  have hlen : (b.named text id).code.toList.length = b.code.toList.length + i.encodedLength := by
    rw [hi, length_code_instructed]
    rfl
  rw [Thrifty, hlen]
  omega

theorem stringId_thrifty (h : b.Thrifty) (text : String) :
    Step.Ends (stringId text) b (fun _ b' => b'.Thrifty) fun _ b' => b'.Overfull := by
  rw [stringId, Step.ends_bind, Step.ends_get]
  split
  · exact h
  · rw [Step.ends_bind, Step.ends_get]
    split
    · rename_i hnone
      show 2 ^ 32 ≤ _
      rwa [Thrifty, used, hnone] at h
    · rename_i id hid
      exact h.named hid text

end Builder

namespace Statement

open Builder

variable {b : Builder}

theorem naming_thrifty (h : b.Thrifty) (text : String) (i : UInt32 → Instr) :
    Step.Ends (do emitInstr (i (← stringId text)) : Emission Unit) b (fun _ b' => b'.Thrifty)
      fun _ b' => b'.Overfull := by
  rw [Step.ends_bind]
  exact (stringId_thrifty h text).mono (fun id b₁ h₁ => h₁.instructed (i id)) fun _ _ h₁ => h₁

/-- A statement is emitted unless the memory is too small for the code before it. -/
theorem emit_thrifty (h : b.Thrifty) {st : Statement} (hst : st.Plain) :
    Step.Ends st.emit b (fun _ b' => b'.Thrifty) fun _ b' => b'.Overfull := by
  cases st with
  | setText text | createText text => exact Thrifty.instructed (b := b.stored text) h _
  | removeAttribute name => exact naming_thrifty h name _
  | createElement tag => exact naming_thrifty h tag _
  | newListener event a b => exact naming_thrifty h event (.newListener · a b)
  | updateListener event a b => exact naming_thrifty h event (.updateListener · a b)
  | removeListener event => exact naming_thrifty h event _
  | removeSelfAndNextSiblings | replaceWith | pushFirstChild | popPushNextSibling | pop
  | appendChild => exact h.instructed _
  | addString text id => exact absurd rfl (hst.2 text id)
  | raw w => exact absurd rfl (hst.1 w)
  | setAttribute name value =>
    rw [emit, Step.ends_bind]
    refine (stringId_thrifty h name).mono (fun n b₁ h₁ => ?_) fun _ _ h₁ => h₁
    rw [Step.ends_bind]
    exact (stringId_thrifty h₁ value).mono (fun v b₂ h₂ => h₂.instructed _) fun _ _ h₂ => h₂

/-- The code for statements stands for them. It is complete unless it is too long for a memory. -/
theorem forM_emit_ends (hb : b.Orderly) (h : b.Thrifty) {sts : List Statement}
    (hsts : ∀ st ∈ sts, st.Plain) :
    Step.Ends (sts.forM emit) b (fun _ b' => Says b b' sts) fun _ b' => b'.Overfull := by
  induction sts generalizing b with
  | nil => exact .refl hb
  | cons st sts ih =>
    have hst := hsts st List.mem_cons_self
    have hspoken : st.spoken = [st] := by
      cases st with
      | addString text id => exact absurd rfl (hst.2 text id)
      | _ => rfl
    have hsays := Step.ends_iff.mp (emit_ends hb hst.1)
    have hthrifty := Step.ends_iff.mp (emit_thrifty h hst)
    show Step.Ends (st.emit >>= fun _ => sts.forM emit) b _ _
    rw [Step.ends_bind, Step.ends_iff]
    refine ⟨fun _ b₁ h₁ => ?_, hthrifty.2⟩
    have hsay := hsays.1 _ b₁ h₁
    rw [hspoken] at hsay
    have hrest (st : Statement) (hst : st ∈ sts) := hsts st (List.mem_cons_of_mem _ hst)
    exact (ih hsay.orderly (hthrifty.1 _ b₁ h₁) hrest).mono (fun _ _ h₂ => hsay.trans h₂)
      fun _ _ h₂ => h₂

end Statement

/-! ## The finished program -/

/-- The range of the instructions of a program. -/
def Image.span (image : Image) : Span :=
  ⟨image.start, image.len⟩

namespace Statement

open Builder (Says)

variable {sts : List Statement}

/-- The program for statements. -/
def program (sts : List Statement) : Builder :=
  Step.after (sts.forM emit) .empty

theorem program_ends (hsts : ∀ st ∈ sts, st.Plain)
    (hlen : (program sts).finish.bytes.length < 2 ^ 32) :
    sts.forM emit .empty = .ok () (program sts) ∧ Says .empty (program sts) sts := by
  have hends := Step.ends_iff.mp (forM_emit_ends (Builder.startingAt_orderly 0)
    (Nat.zero_le _ : (Builder.startingAt 0).Thrifty) hsts)
  rw [program, Step.after] at hlen ⊢
  cases hc : sts.forM emit .empty with
  | ok a b => exact ⟨rfl, hends.1 a b hc⟩
  | error f b =>
    -- code that breaks off is too long on its own
    rw [hc] at hlen
    have hlen : b.finish.bytes.length < 2 ^ 32 := hlen
    have hfull : 2 ^ 32 ≤ b.code.toList.length := hends.2 f b hc
    have hbytes : b.finish.bytes.length = b.data.toList.length + b.code.toList.length :=
      List.length_append
    omega

/-- The range of the program is found, and stands for the statements whatever table it is read
with. -/
theorem denotes_program (hsts : ∀ st ∈ sts, st.Plain)
    (hlen : (program sts).finish.bytes.length < 2 ^ 32) :
    ∃ offset is, Cursor.ofRange (program sts).finish.bytes (program sts).finish.span.start
        (program sts).finish.span.len = .ok ⟨offset, is.flatMap Instr.encode⟩ ∧
      ∀ t, ∃ t', Denotes (program sts).finish.bytes t is sts t' := by
  obtain ⟨is, hcode, his⟩ := (program_ends hsts hlen).2.code
  have hcode : (program sts).code.toList = is.flatMap Instr.encode := hcode
  have hrange := Builder.ofRange_finish hlen
  rw [hcode] at hrange
  refine ⟨_, is, hrange, fun t => ?_⟩
  obtain ⟨t', hd, -⟩ := his (program sts).finish.bytes t (List.prefix_append _ _) hlen
    (Builder.startingAt_agrees 0 t)
  exact ⟨t', hd⟩

end Statement

namespace Block

open Builder (Says)

theorem program_ends (bs : List Block) (hlen : (program bs).finish.bytes.length < 2 ^ 32) :
    compile bs .empty = .ok () (program bs) ∧ Says .empty (program bs) (statementsAll bs) :=
  Statement.program_ends (plain_statementsAll bs) hlen

/-- The range of the program is found, and stands for the statements whatever table it is read
with. -/
theorem denotes_program (bs : List Block) (hlen : (program bs).finish.bytes.length < 2 ^ 32) :
    ∃ offset is, Cursor.ofRange (program bs).finish.bytes (program bs).finish.span.start
        (program bs).finish.span.len = .ok ⟨offset, is.flatMap Instr.encode⟩ ∧
      ∀ t, ∃ t', Denotes (program bs).finish.bytes t is (statementsAll bs) t' :=
  Statement.denotes_program (plain_statementsAll bs) hlen

end Block

end TreeEdit
