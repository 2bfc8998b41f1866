import TreeEdit.Document.Basic

/-!
# Changing documents

The calls that change a document. Each of them is a step that may be refused. A move takes the node
out of its former place first; before that it is checked that the new place is not inside the node
itself, so that the parents never form a cycle.

Of two reasons for a refusal the one about the node that stays comes first: an unknown parent, then
a parent that is a text, then a cycle, then an unknown child.
-/

namespace TreeEdit.Document

variable {κ : Type}

/-- A change of a document, which may be refused. -/
abbrev Change (κ : Type) := EStateM HostError (Document κ)

/-! ## Single nodes -/

/-- The node with a given name, which must exist. -/
def look (id : NodeId) : Change κ (Node κ) := fun d =>
  match d.node? id with
  | some n => .ok n d
  | none => .error (.unknownNode id.index) d

/-- Changes the node with a given name, which must exist. -/
def change (id : NodeId) (f : Node κ → Node κ) : Change κ Unit := fun d =>
  if id.index < d.nodes.size then .ok () { d with nodes := d.nodes.modify id.index f }
  else .error (.unknownNode id.index) d

/-- Adds a node to the store. -/
def allocate (content : Content) : Change κ NodeId := fun d =>
  .ok ⟨d.nodes.size⟩ { d with nodes := d.nodes.push (.detached content) }

/-- Only the node that is changed looks different. -/
theorem node?_of_change {id : NodeId} {f : Node κ → Node κ} {d d' : Document κ}
    (h : change id f d = .ok () d') (id' : NodeId) :
    d'.node? id' = if id = id' then (d.node? id').map f else d.node? id' := by
  simp only [change] at h
  split at h
  · cases h
    simp only [node?, Array.getElem?_modify, NodeId.ext_iff]
  · cases h

/-- Nodes that are there already stay as they are when one is added. -/
theorem node?_of_allocate {content : Content} {d d' : Document κ} {id : NodeId}
    (h : allocate content d = .ok id d') (id' : NodeId) :
    d'.node? id' = if id = id' then some (.detached content) else d.node? id' := by
  cases h
  simp only [node?, Array.getElem?_push, NodeId.ext_iff, eq_comm]

/-- Makes an element without parent. -/
def createElement (tag : String) : Change κ NodeId :=
  allocate (.element tag .empty .untouched)

/-- Makes a text node without parent. -/
def createText (text : String) : Change κ NodeId :=
  allocate (.text text)

/-- The document that holds one element, its container, and the name of the container. -/
def withContainer (tag : String) : Document κ × NodeId :=
  (⟨#[.detached (.element tag .empty .untouched)], 0⟩, ⟨0⟩)

/-- The document that holds a container whose only child is an element, its seed. The container is
the node with index 0, the seed the one with index 1. -/
def withSeed (container seed : String) : Document κ :=
  ⟨#[{ content := .element container .empty .untouched, parent := none, children := [⟨1⟩],
        handlers := [] },
      { content := .element seed .empty .untouched, parent := some ⟨0⟩, children := [],
        handlers := [] }], 0⟩

/-! ## Places in the tree -/

/-- Writes the parent of a node. -/
def setParent (id : NodeId) (parent : Option NodeId) : Change κ Unit :=
  change id fun n => { n with parent := parent }

/-- Changes the children of a node. -/
def changeChildren (id : NodeId) (f : List NodeId → List NodeId) : Change κ Unit :=
  change id fun n => { n with children := f n.children }

/-- Takes a node out of its parent. A node without parent stays as it is. -/
def remove (id : NodeId) : Change κ Unit := do
  let n ← look id
  setParent id none
  match n.parent with
  | some parent => changeChildren parent (·.filter (· ≠ id))
  | none => return

/-- Adds `child` as the last child of `parent`. -/
def append (parent child : NodeId) : Change κ Unit := do
  match (← look parent).content with
  | .text _ => throw .childrenOfText
  | .element .. =>
    if (← get).isInclusiveAncestor child parent then
      throw .appendCycle
    remove child
    changeChildren parent (· ++ [child])
    setParent child (some parent)

/-- Puts `new` in the place of `old`, which has no parent after that. Nothing happens if `old` has
no place, or is `new`. -/
def replace (old new : NodeId) : Change κ Unit := do
  match (← look old).parent with
  | none => return
  | some parent =>
    if old = new then
      return
    if (← get).isInclusiveAncestor new parent then
      throw .replaceCycle
    remove new
    match (← look parent).children.idxOf? old with
    | none => throw .replaceIncoherent
    | some place =>
      changeChildren parent (·.set place new)
      setParent old none
      setParent new (some parent)

/-- Replaces what a node contains by a text. A text node takes the new text; the children of an
element lose their parent, and a text node takes their place unless the text is empty. -/
def setText (id : NodeId) (text : String) : Change κ Unit := do
  let n ← look id
  match n.content with
  | .text _ => change id fun n => { n with content := .text text }
  | .element .. =>
    changeChildren id fun _ => []
    n.children.forM fun child => setParent child none
    if text ≠ "" then
      append id (← createText text)

/-! ## Attributes and live properties -/

/-- Changes the attributes and properties of an element. -/
def changeElement (id : NodeId)
    (f : OrderedMap String String → Properties → OrderedMap String String × Properties) :
    Change κ Unit := do
  match (← look id).content with
  | .text _ => throw (.attributesOfText id.index)
  | .element tag attributes properties =>
    let (attributes, properties) := f attributes properties
    change id fun n => { n with content := .element tag attributes properties }

/-- Sets an attribute. One that is there keeps its place. -/
def setAttribute (id : NodeId) (name value : String) : Change κ Unit :=
  changeElement id fun attributes properties => (attributes.put name value, properties)

/-- Removes an attribute, if it is there. -/
def removeAttribute (id : NodeId) (name : String) : Change κ Unit :=
  changeElement id fun attributes properties => (attributes.erase name, properties)

/-- Writes a live property. -/
def setProperty (id : NodeId) (property : Property) : Change κ Unit :=
  changeElement id fun attributes properties => (attributes, properties.write property)

/-! ## Handlers -/

/-- Binds a callback to a node. Bindings are numbered from 1, and a number is used up even if the
node does not exist. -/
def listen (id : NodeId) (eventType : String) (callback : κ) : Change κ Nat := do
  modify fun d => { d with lastBinding := d.lastBinding + 1 }
  let binding := (← get).lastBinding
  change id fun n => { n with handlers := n.handlers ++ [⟨eventType, binding, callback⟩] }
  return binding

/-- Undoes a binding of a node. The number alone tells which, and one that is not there is none to
undo. -/
def unlisten (id : NodeId) (binding : Nat) : Change κ Unit :=
  change id fun n => { n with handlers := n.handlers.filter (·.binding ≠ binding) }

end TreeEdit.Document
