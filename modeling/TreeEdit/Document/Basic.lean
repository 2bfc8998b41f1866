import TreeEdit.Host.Basic
import TreeEdit.OrderedMap

/-!
# Documents

A document is a store of nodes: elements with a tag, attributes in the order in which they were set
and live properties, and texts. Every node knows its parent, its children in order, and the handlers
bound to it. Nodes are never given up; one that is taken out of its parent stays in the store and
can be put back.

A node is named by its place in the store. Names are plain numbers, so they need not belong to any
node: looking at an unknown node finds nothing, changing it is refused. The handlers of a document
carry callbacks of any type `κ`.
-/

namespace TreeEdit

/-! ## Nodes -/

/-- The name of a node: its place in the store. -/
@[ext]
structure NodeId where
  index : Nat
  deriving DecidableEq, Repr, Inhabited

/-- The identity of a node for its listeners. -/
def NodeId.key (id : NodeId) : NodeKey :=
  ⟨id.index⟩

/-- The live state of a form control. -/
structure Properties where
  value : Option String
  checked : Bool
  selected : Bool
  deriving DecidableEq, Repr, Inhabited

/-- The state of a control that nobody has touched. -/
def Properties.untouched : Properties :=
  ⟨none, false, false⟩

/-- The state after a property is written. -/
def Properties.write (p : Properties) : Property → Properties
  | .value text => { p with value := text }
  | .checked on => { p with checked := on }
  | .selected on => { p with selected := on }

/-- What a node is. -/
inductive Content
  /-- An element. -/
  | element (tag : String) (attributes : OrderedMap String String) (properties : Properties)
  /-- A text. -/
  | text (text : String)

/-- A callback bound to a node for a type of event. -/
structure Handler (κ : Type) where
  eventType : String
  binding : Nat
  callback : κ

/-- A node of a document. -/
structure Node (κ : Type) where
  content : Content
  parent : Option NodeId
  children : List NodeId
  handlers : List (Handler κ)

/-- A node without parent, children and handlers. -/
def Node.detached {κ : Type} (content : Content) : Node κ :=
  ⟨content, none, [], []⟩

/-! ## Documents -/

/-- A store of nodes. -/
structure Document (κ : Type) where
  /-- The nodes, by their place. -/
  nodes : Array (Node κ)
  /-- The number of the last binding given out; 0 before the first. -/
  lastBinding : Nat

namespace Document

variable {κ : Type}

/-- The document without nodes. -/
def empty : Document κ :=
  ⟨#[], 0⟩

/-- The number of nodes, those without parent included. -/
def size (d : Document κ) : Nat :=
  d.nodes.size

/-- Whether there is no node. -/
def isEmpty (d : Document κ) : Bool :=
  d.nodes.isEmpty

/-! ## Looking -/

/-- The node with a given name. -/
def node? (d : Document κ) (id : NodeId) : Option (Node κ) :=
  d.nodes[id.index]?

/-- The parent of a node. -/
def parent? (d : Document κ) (id : NodeId) : Option NodeId :=
  (d.node? id).bind (·.parent)

/-- The children of a node, in order. -/
def children (d : Document κ) (id : NodeId) : List NodeId :=
  ((d.node? id).map (·.children)).getD []

/-- The first child of a node. -/
def firstChild? (d : Document κ) (id : NodeId) : Option NodeId :=
  (d.children id).head?

/-- The sibling after a node. -/
def nextSibling? (d : Document κ) (id : NodeId) : Option NodeId := do
  let siblings := d.children (← d.parent? id)
  let place ← siblings.idxOf? id
  siblings[place + 1]?

/-- The tag of an element. -/
def tag? (d : Document κ) (id : NodeId) : Option String :=
  match (d.node? id).map Node.content with
  | some (.element tag _ _) => some tag
  | _ => none

/-- The value of an attribute. -/
def attribute? (d : Document κ) (id : NodeId) (name : String) : Option String :=
  match (d.node? id).map Node.content with
  | some (.element _ attributes _) => attributes.get? name
  | _ => none

/-- The live properties of a node. Those of a text or of an unknown node count as untouched. -/
def properties (d : Document κ) (id : NodeId) : Properties :=
  match (d.node? id).map Node.content with
  | some (.element _ _ properties) => properties
  | _ => .untouched

/-- The number of handlers bound to a node. -/
def handlerCount (d : Document κ) (id : NodeId) : Nat :=
  ((d.node? id).map (·.handlers.length)).getD 0

/-- Whether `ancestor` is `id` or found by going up from it at most `steps` times. -/
def reachesWithin (d : Document κ) (ancestor : NodeId) : Nat → NodeId → Bool
  | 0, id => decide (id = ancestor)
  | steps + 1, id =>
    id = ancestor ||
      match d.parent? id with
      | some parent => d.reachesWithin ancestor steps parent
      | none => false

/-- Whether `ancestor` is `id` or one of its ancestors. No way up is longer than the document has
nodes. -/
def isInclusiveAncestor (d : Document κ) (ancestor id : NodeId) : Bool :=
  d.reachesWithin ancestor d.size id

/-- The document as a listing of its size, for inspection. -/
def render (d : Document κ) : String :=
  "MemDom \x7b nodes: " ++ Text.Numeral.decimal d.size ++ " \x7d"

end Document

end TreeEdit
