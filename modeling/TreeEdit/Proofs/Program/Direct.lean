import TreeEdit.Proofs.Machine.Alike
import TreeEdit.Proofs.Machine.Encoding
import TreeEdit.Proofs.Program.Denotation

/-!
# Doing what statements say

`Statement.perform` does what a statement says, with the texts that the statement itself has: there
is no memory, no string id and no table in it. Code that stands for statements does to a machine
what the statements do (`runFrom_agree`), up to the journal and the string table, which statements
know nothing of.
-/

namespace TreeEdit

open Binary (Bytes Cursor)
open Step (Agree)
open Machine (call exec follow onScene onStack attempt runFrom Alike)

variable {δ ν β τ : Type} {H : Host δ ν β} {mem : Bytes}

namespace Statement

/-- Does what a statement says. What only gives a text an id, and words of no instruction, do
nothing. -/
def perform (H : Host δ ν β) : Statement → Machine.Act δ ν β τ Unit
  | setText text => do
    let node ← onStack (Stack.topNode .setText)
    call H (.setText node text)
  | removeSelfAndNextSiblings => exec H [] .removeSelfAndNextSiblings
  | replaceWith => exec H [] .replaceWith
  | setAttribute name value => do
    let node ← onStack (Stack.topNode .setAttribute)
    call H (.setAttribute node name value)
    follow H node (Property.ofSetting name value)
  | removeAttribute name => do
    let node ← onStack (Stack.topNode .removeAttribute)
    call H (.removeAttribute node name)
    follow H node (Property.ofRemoval name)
  | pushFirstChild => exec H [] .pushFirstChild
  | popPushNextSibling => exec H [] .popPushNextSibling
  | pop => exec H [] .pop
  | appendChild => exec H [] .appendChild
  | createText text => do
    let node ← call H (.createText text)
    onStack (Stack.push (some node))
  | createElement tag => do
    let node ← call H (.createElement tag)
    onStack (Stack.push (some node))
  | newListener event a b => do
    let node ← onStack (Stack.topNode .newListener)
    onScene (Scene.attach H node event (a, b))
  | updateListener event a b => do
    let node ← onStack (Stack.topNode .updateListener)
    let key := H.key (← get).doc node
    onScene (Scene.update key event (a, b))
  | removeListener event => do
    let node ← onStack (Stack.topNode .removeListener)
    onScene (Scene.detach H node event)
  | addString _ _ => return
  | raw _ => return

/-- Does what statements say, one after another. -/
def performAll (H : Host δ ν β) : List Statement → Machine.Act δ ν β τ Unit
  | [] => return
  | st :: sts => do
    st.perform H
    performAll H sts

end Statement

/-! ## Single instructions -/

namespace Machine

variable {m m' : Machine δ ν β τ} {t : StringTable}

theorem textAt_of_text {ptr len : UInt32} {text : String}
    (h : Binary.text mem ptr len = .ok text) : textAt mem ptr len m = .ok text m := by
  rw [textAt, h]
  rfl

theorem string_of_get {id : UInt32} {text : String} (h : m.strings.get id = .ok text) :
    string id m = .ok text m := by
  show (get >>= fun m' => Step.ofExcept (m'.strings.get id)) m = _
  rw [Step.get_bind, h]
  rfl

theorem strings_of_onStack {α : Type} {x : EStateM Error (Stack ν) α} {a : α}
    (h : onStack x m = .ok a m') : m'.strings = m.strings := by
  rw [onStack, Step.onPart] at h
  split at h
  · cases h
    rfl
  · cases h

/-- A name looked up after a step on the stack is the text that it stood for before. -/
theorem named_after_stack {α ρ : Type} {x : EStateM Error (Stack ν) α} {n : UInt32} {text : String}
    {f : α → String → Act δ ν β τ ρ} (h : m.strings.get n = .ok text) :
    (do let a ← onStack x; f a (← string n)) m = (do let a ← onStack x; f a text) m := by
  refine Step.bind_congr fun a m' hx => ?_
  rw [← strings_of_onStack hx] at h
  rw [Step.bind_ok (string_of_get h)]

/-- An instruction does what the statement says that it stands for. -/
theorem exec_of_means {i : Instr} {st : Statement} (h : Means mem m.strings i st) :
    exec H mem i m = st.perform H m := by
  -- places need no table, and names are looked up before anything but the stack has changed
  cases h with
  | removeSelfAndNextSiblings => rfl
  | replaceWith => rfl
  | pushFirstChild => rfl
  | popPushNextSibling => rfl
  | pop => rfl
  | appendChild => rfl
  | setText h =>
    rw [exec, Step.bind_ok (textAt_of_text h)]
    rfl
  | createText h =>
    rw [exec, Step.bind_ok (textAt_of_text h)]
    rfl
  | createElement hn =>
    rw [exec, Step.bind_ok (string_of_get hn)]
    rfl
  | removeAttribute hn => exact named_after_stack hn
  | newListener a b hn => exact named_after_stack hn
  | removeListener hn => exact named_after_stack hn
  | updateListener a b hn =>
    refine Step.bind_congr fun node m' hx => ?_
    rw [← strings_of_onStack hx] at hn
    rw [Step.get_bind, Step.bind_ok (string_of_get hn)]
    rfl
  | setAttribute hn hv =>
    refine Step.bind_congr fun node m' hx => ?_
    rw [← strings_of_onStack hx] at hn hv
    rw [Step.bind_ok (string_of_get hn), Step.bind_ok (string_of_get hv)]

/-- What a statement does depends neither on the journal nor on the string table. -/
theorem perform_agree (h : Alike t m m') (st : Statement) :
    Agree (Alike t) (st.perform H) (st.perform H) m m' := by
  cases st with
  | setText text =>
    exact Step.agree_bind (onStack_agree h _) fun _ _ _ h => call_agree h _
  | removeSelfAndNextSiblings =>
    refine Step.agree_bind (onStack_agree h _) fun _ _ _ h => Step.agree_get ?_
    rw [← h.scene.doc]
    exact removeFrom_agree h _ _
  | replaceWith =>
    exact Step.agree_bind (onStack_agree h _) fun _ _ _ h =>
      Step.agree_bind (onStack_agree h _) fun _ _ _ h =>
        Step.agree_bind (call_agree h _) fun _ _ _ h => onStack_agree h _
  | setAttribute name value =>
    exact Step.agree_bind (onStack_agree h _) fun _ _ _ h =>
      Step.agree_bind (call_agree h _) fun _ _ _ h => follow_agree h _ _
  | removeAttribute name =>
    exact Step.agree_bind (onStack_agree h _) fun _ _ _ h =>
      Step.agree_bind (call_agree h _) fun _ _ _ h => follow_agree h _ _
  | pushFirstChild =>
    refine Step.agree_bind (onStack_agree h _) fun _ _ _ h => Step.agree_get ?_
    rw [← h.scene.doc]
    exact onStack_agree h _
  | popPushNextSibling =>
    refine Step.agree_bind (onStack_agree h _) fun _ _ _ h => Step.agree_get ?_
    rw [← h.scene.doc]
    exact onStack_agree h _
  | pop => exact Step.agree_bind (onStack_agree h _) fun _ _ _ h => Step.agree_pure _ h
  | appendChild =>
    exact Step.agree_bind (onStack_agree h _) fun _ _ _ h =>
      Step.agree_bind (onStack_agree h _) fun _ _ _ h => call_agree h _
  | createText text =>
    exact Step.agree_bind (call_agree h _) fun _ _ _ h => onStack_agree h _
  | createElement tag =>
    exact Step.agree_bind (call_agree h _) fun _ _ _ h => onStack_agree h _
  | newListener event a b =>
    exact Step.agree_bind (onStack_agree h _) fun _ _ _ h =>
      onScene_agree h (Scene.attach_agree h.scene _ _ _)
  | updateListener event a b =>
    refine Step.agree_bind (onStack_agree h _) fun _ _ _ h => Step.agree_get ?_
    rw [← h.scene.doc]
    exact onScene_agree h (Scene.update_agree h.scene _ _ _)
  | removeListener event =>
    exact Step.agree_bind (onStack_agree h _) fun _ _ _ h =>
      onScene_agree h (Scene.detach_agree h.scene _ _)
  | addString text id => exact Step.agree_pure _ h
  | raw word => exact Step.agree_pure _ h

/-- An attempt at an instruction does what its statement says, after a note at most. -/
theorem attempt_agree (h : Alike t m m') (traced : Bool) (offset : Nat) {i : Instr} {st : Statement}
    (hi : Means mem t i st) :
    Agree (Alike t) (attempt H mem traced offset i) (st.perform H) m m' := by
  have hexec {m₁ : Machine δ ν β τ} (h : Alike t m₁ m') :
      Agree (Alike t) (exec H mem i) (st.perform H) m₁ m' := by
    rw [← h.strings] at hi
    have hblind := perform_agree (H := H) h st
    unfold Agree at hblind ⊢
    rwa [exec_of_means hi]
  cases traced with
  | false => exact hexec h
  | true =>
    have hnoted : Alike t { m with
        journal := m.journal.push (.attempted offset i m.stack.depth) } m' :=
      ⟨⟨h.scene.doc, h.scene.listeners⟩, h.stack, h.strings⟩
    exact hexec hnoted

/-- An entry of the string table is stored, and nothing else shows. -/
theorem attempt_entry (h : Alike t m m') (traced : Bool) (offset : Nat) {ptr len id : UInt32}
    {text : String} (ht : Binary.text mem ptr len = .ok text) :
    ∃ m₁, attempt H mem traced offset (.addString ptr len id) m = .ok () m₁ ∧
      Alike (t.add text id) m₁ m' := by
  have hexec (m : Machine δ ν β τ) : exec H mem (.addString ptr len id) m
      = .ok () { m with strings := m.strings.add text id } := by
    rw [exec, Step.bind_ok (textAt_of_text ht)]
    rfl
  have hstored : m.strings.add text id = t.add text id := congrArg (·.add text id) h.strings
  cases traced with
  | false => exact ⟨_, hexec m, ⟨h.scene, h.stack, hstored⟩⟩
  | true =>
    refine ⟨_, hexec { m with journal := m.journal.push (.attempted offset _ m.stack.depth) }, ?_⟩
    exact ⟨⟨h.scene.doc, h.scene.listeners⟩, h.stack, hstored⟩

/-! ## Whole codes -/

/-- Running code that stands for statements does what the statements say. -/
theorem runFrom_agree {is : List Instr} {sts : List Statement} {t' : StringTable}
    (hd : Denotes mem t is sts t') (h : Alike t m m') (traced : Bool) (offset executed : Nat) :
    Agree Same
      (do let _ ← runFrom H mem traced ⟨offset, is.flatMap Instr.encode⟩ executed)
      (Statement.performAll H sts) m m' := by
  -- along the code; an entry changes the table on the left and nothing on the right
  induction hd generalizing m m' offset executed with
  | nil t =>
    rw [List.flatMap_nil, runFrom_nil]
    exact Step.agree_pure _ ⟨t, h⟩
  | @entry _ _ ptr len id text is sts ht _ ih =>
    obtain ⟨m₁, hm₁, h₁⟩ := attempt_entry (H := H) h traced offset ht
    rw [List.flatMap_cons, runFrom_encode]
    have hrest := ih h₁ (offset + (Instr.addString ptr len id).encodedLength) (executed + 1)
    unfold Agree at hrest ⊢
    rw [bind_assoc, Step.bind_ok hm₁]
    exact hrest
  | instr hi _ ih =>
    rw [List.flatMap_cons, runFrom_encode, bind_assoc]
    exact Step.agree_bind_mono (attempt_agree h traced offset hi) (fun _ _ h => ⟨_, h⟩)
      fun _ _ _ h => ih h _ _

end Machine

end TreeEdit
