import TreeEdit.Proofs.Program.Denotation

/-!
# What the calls of a builder leave

A call of a builder leaves items in the program: texts with the places that they have been given,
instructions, and raw words. `itemsAll` lists the items of a history of calls, those of a call that
fails midway included. What the two zones of the builder hold is what the items say, and each text
has been given the place where its bytes are (`yields_makeAll`).
-/

namespace TreeEdit

open Binary (Bytes)

/-! ## Items -/

/-- An item of a program: a text with the place that it has been given, an instruction, or a raw
word. -/
inductive Item
  | text (text : String) (ptr len : UInt32)
  | instr (i : Instr)
  | word (w : UInt32)
  deriving DecidableEq, Repr

namespace Item

/-- The bytes of an item among the texts. -/
def data : Item → Bytes
  | text t _ _ => Binary.padded (Text.Utf8.encode t)
  | instr _ | word _ => []

/-- The bytes of an item among the instructions. -/
def code : Item → Bytes
  | text _ _ _ => []
  | instr i => i.encode
  | word w => Binary.Word.bytes w

/-- The instruction that an item is. -/
def instr? : Item → Option Instr
  | instr i => some i
  | text _ _ _ | word _ => none

/-- Whether an item counts as an instruction. -/
def counts : Item → Bool
  | text _ _ _ => false
  | instr _ | word _ => true

/-- The place that the item has been given, if it is a text, starts at `offset`. -/
def PlacedAt (offset : Nat) : Item → Prop
  | text t ptr len => ptr = offset.toUInt32 ∧ len = (Text.Utf8.encode t).length.toUInt32
  | instr _ | word _ => True

/-- The texts have been given the places where their bytes are, from `offset` on. -/
def Placed : Nat → List Item → Prop
  | _, [] => True
  | offset, item :: items => item.PlacedAt offset ∧ Placed (offset + item.data.length) items

theorem placed_append {offset : Nat} {items items' : List Item} :
    Placed offset (items ++ items') ↔
      Placed offset items ∧ Placed (offset + (items.flatMap data).length) items' := by
  induction items generalizing offset with
  | nil => exact ⟨fun h => ⟨trivial, h⟩, And.right⟩
  | cons item items ih =>
    rw [List.cons_append, Placed, Placed, ih, and_assoc, List.flatMap_cons, List.length_append,
      Nat.add_assoc]

end Item

/-! ## The items of calls -/

namespace Builder

/-- The items of storing a text, and those that follow, given its place. -/
def placing (b : Builder) (text : String) (k : UInt32 → UInt32 → List Item) : List Item :=
  match intern text b with
  | .ok (ptr, len) _ => .text text ptr len :: k ptr len
  | .error _ _ => []

/-- The items of giving an id to a text. -/
def identifying (b : Builder) (text : String) (id : UInt32) : List Item :=
  b.placing text fun ptr len => [.instr (.addString ptr len id)]

/-- The items of asking for the id of a text. There are none if the text has one, or if no new one
is left. -/
def idItems (b : Builder) (text : String) : List Item :=
  match b.ids.get? text, b.nextId with
  | none, some id => b.identifying text id
  | _, _ => []

/-- The items of asking for the id of a text, and those that follow, given the id. Nothing follows
if there is none. -/
def naming (b : Builder) (text : String) (k : UInt32 → Builder → List Item) : List Item :=
  match stringId text b with
  | .ok id b' => b.idItems text ++ k id b'
  | .error _ _ => b.idItems text

end Builder

/-- The items of a statement. -/
def Statement.items (b : Builder) : Statement → List Item
  | setText text => b.placing text fun ptr len => [.instr (.setText ptr len)]
  | removeSelfAndNextSiblings => [.instr .removeSelfAndNextSiblings]
  | replaceWith => [.instr .replaceWith]
  | setAttribute name value =>
    b.naming name fun n b' => b'.naming value fun v _ => [.instr (.setAttribute n v)]
  | removeAttribute name => b.naming name fun n _ => [.instr (.removeAttribute n)]
  | pushFirstChild => [.instr .pushFirstChild]
  | popPushNextSibling => [.instr .popPushNextSibling]
  | pop => [.instr .pop]
  | appendChild => [.instr .appendChild]
  | createText text => b.placing text fun ptr len => [.instr (.createText ptr len)]
  | createElement tag => b.naming tag fun n _ => [.instr (.createElement n)]
  | newListener event x y => b.naming event fun n _ => [.instr (.newListener n x y)]
  | updateListener event x y => b.naming event fun n _ => [.instr (.updateListener n x y)]
  | removeListener event => b.naming event fun n _ => [.instr (.removeListener n)]
  | addString text id => b.identifying text id
  | raw w => [.word w]

/-- A call of a builder: to store a text, to emit an instruction as it is, or a request. -/
inductive Call
  | intern (text : String)
  | instr (i : Instr)
  | request (r : Request)

namespace Call

/-- Makes the call. -/
def emit : Call → Emission Unit
  | intern text => do let _ ← Builder.intern text
  | instr i => Builder.emitInstr i
  | request r => r.emit

/-- The items that the call leaves, also when it fails. -/
def items (b : Builder) : Call → List Item
  | intern text => b.placing text fun _ _ => []
  | instr i => [.instr i]
  | request (.stringId text) => b.idItems text
  | request (.statement st) => st.items b

/-- The builder after some calls, of which any may have failed. -/
def makeAll : List Call → Builder → Builder
  | [], b => b
  | c :: cs, b => makeAll cs (Step.after c.emit b)

/-- The items of some calls, in order. -/
def itemsAll : List Call → Builder → List Item
  | [], _ => []
  | c :: cs, b => c.items b ++ itemsAll cs (Step.after c.emit b)

end Call

/-! ## Calls yield their items -/

namespace Builder

variable {b b' b'' : Builder} {items items' : List Item}

/-- From `b` to `b'`, exactly the items were added. -/
structure Yields (b b' : Builder) (items : List Item) : Prop where
  data : b'.data.toList = b.data.toList ++ items.flatMap Item.data
  code : b'.code.toList = b.code.toList ++ items.flatMap Item.code
  count : b'.count = b.count + items.countP Item.counts
  placed : Item.Placed b.data.toList.length items

theorem Yields.refl (b : Builder) : Yields b b [] :=
  ⟨(List.append_nil _).symm, (List.append_nil _).symm, rfl, trivial⟩

theorem Yields.trans (h : Yields b b' items) (h' : Yields b' b'' items') :
    Yields b b'' (items ++ items') where
  data := by rw [h'.data, h.data, List.append_assoc, List.flatMap_append]
  code := by rw [h'.code, h.code, List.append_assoc, List.flatMap_append]
  count := by rw [h'.count, h.count, List.countP_append, Nat.add_assoc]
  placed := by
    have hlater := h'.placed
    rw [h.data, List.length_append] at hlater
    exact Item.placed_append.mpr ⟨h.placed, hlater⟩

theorem yields_stored (b : Builder) (text : String) :
    Yields b (b.stored text)
      [.text text b.data.offset (Text.Utf8.encode text).length.toUInt32] where
  data := by
    rw [stored, Binary.Zone.toList_addPadded, List.flatMap_singleton]
    rfl
  code := (List.append_nil _).symm
  count := rfl
  placed := by
    refine ⟨⟨?_, rfl⟩, trivial⟩
    rw [Binary.Zone.offset, Binary.Zone.length_eq]

theorem yields_instructed (b : Builder) (i : Instr) : Yields b (b.instructed i) [.instr i] where
  data := (List.append_nil _).symm
  code := toList_code_instructed i
  count := rfl
  placed := ⟨trivial, trivial⟩

theorem yields_placing {text : String} {k : UInt32 → UInt32 → List Item}
    (h : Yields (b.stored text) b'
      (k b.data.offset (Text.Utf8.encode text).length.toUInt32)) :
    Yields b b' (b.placing text k) :=
  (yields_stored b text).trans h

theorem yields_named (b : Builder) (text : String) (id : UInt32) :
    Yields b (b.named text id) (b.identifying text id) := by
  -- which text has the id is no matter of the zones
  have h := yields_instructed (assign text id (b.stored text))
    (.addString b.data.offset (Text.Utf8.encode text).length.toUInt32 id)
  exact yields_placing ⟨h.data, h.code, h.count, h.placed⟩

/-- The items of a text whose id is asked for are left whether there is one or not. -/
theorem yields_stringId (b : Builder) (text : String) :
    Step.Ends (stringId text) b (fun _ b' => Yields b b' (b.idItems text))
      fun _ b' => Yields b b' (b.idItems text) := by
  rw [stringId, Step.ends_bind, Step.ends_get, idItems]
  cases b.ids.get? text with
  | some id => exact .refl b
  | none =>
    dsimp only
    rw [Step.ends_bind, Step.ends_get]
    cases b.nextId with
    | none => exact .refl b
    | some id => exact yields_named b text id

theorem yields_naming {text : String} {f : UInt32 → Emission Unit}
    {k : UInt32 → Builder → List Item}
    (h : ∀ id b', Yields b' (Step.after (f id) b') (k id b')) :
    Yields b (Step.after (stringId text >>= f) b) (b.naming text k) := by
  have hends := yields_stringId b text
  unfold Step.Ends at hends
  unfold Step.after naming
  cases hid : stringId text b with
  | ok id b' =>
    rw [hid] at hends
    rw [Step.bind_ok hid]
    exact hends.trans (h id b')
  | error e b' =>
    rw [hid] at hends
    rw [Step.bind_error hid]
    exact hends

end Builder

open Builder (Yields yields_instructed yields_naming yields_placing)

theorem Statement.yields (b : Builder) (st : Statement) :
    Yields b (Step.after st.emit b) (st.items b) := by
  cases st with
  | setText text =>
    exact yields_placing (k := fun ptr len => [.instr (.setText ptr len)])
      (yields_instructed (b.stored text) _)
  | createText text =>
    exact yields_placing (k := fun ptr len => [.instr (.createText ptr len)])
      (yields_instructed (b.stored text) _)
  | addString text id => exact Builder.yields_named b text id
  | removeAttribute name | createElement name | newListener name | updateListener name
  | removeListener name => exact yields_naming fun _ b' => yields_instructed b' _
  | setAttribute name value =>
    exact yields_naming fun _ _ => yields_naming fun _ b' => yields_instructed b' _
  | removeSelfAndNextSiblings | replaceWith | pushFirstChild | popPushNextSibling | pop
  | appendChild => exact yields_instructed b _
  | raw w =>
    exact ⟨(List.append_nil _).symm, Binary.Zone.toList_addWords _ _, rfl, trivial, trivial⟩

namespace Call

theorem yields (b : Builder) (c : Call) : Yields b (Step.after c.emit b) (c.items b) := by
  cases c with
  | intern text => exact Builder.yields_stored b text
  | instr i => exact yields_instructed b i
  | request r =>
    cases r with
    | stringId text =>
      have hpure (id : UInt32) (b' : Builder) :
          Yields b' (Step.after (pure () : Emission Unit) b') [] := .refl b'
      have h : Yields b (Step.after (Builder.stringId text >>= fun _ => pure ()) b)
          (b.naming text fun _ _ => []) := yields_naming hpure
      rw [Builder.naming] at h
      cases hid : Builder.stringId text b with
      | ok id b' => rwa [hid, List.append_nil] at h
      | error e b' => rwa [hid] at h
    | statement st => exact st.yields b

/-- The zones hold what the items of a history say. -/
theorem yields_makeAll (cs : List Call) (b : Builder) :
    Yields b (makeAll cs b) (itemsAll cs b) := by
  induction cs generalizing b with
  | nil => exact .refl b
  | cons c cs ih => exact (c.yields b).trans (ih _)

end Call

end TreeEdit
