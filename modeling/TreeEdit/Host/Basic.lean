import TreeEdit.Error

/-!
# Hosts

The interpreter knows no document of its own. It works on a `Host`: any state `δ` with nodes `ν`
that can be looked at and that answers calls. Looking never changes the state; every change goes
through a `HostCall`, which is plain data, so that the calls of a run can be listed, compared and
refused one by one. A host may refuse any call, with a `HostError`.

Attaching a listener answers a token of type `β`, the binding, which has to be handed back to take
the listener off again.
-/

namespace TreeEdit

open Text.Numeral (decimal)

/-! ## What a host is told -/

/-- The identity of a node, by which its listeners are found. -/
structure NodeKey where
  id : Nat
  deriving DecidableEq, Repr, Inhabited

/-- A node key as messages show it. -/
def NodeKey.render (k : NodeKey) : String :=
  "node#" ++ decimal k.id

/-- An event of a type at a node. -/
structure Event where
  eventType : String
  target : NodeKey
  deriving DecidableEq, Repr

/-- The number of a listener, in the order in which a session made its listeners. -/
@[ext]
structure ListenerId where
  index : Nat
  deriving DecidableEq, Repr, Inhabited

/-- The live state of a form control that has to follow an attribute. The attribute alone is only
the state that the control starts from. -/
inductive Property
  /-- The text of the control, if it has one. -/
  | value (text : Option String)
  /-- Whether the control is checked. -/
  | checked (on : Bool)
  /-- Whether the option is selected. -/
  | selected (on : Bool)
  deriving DecidableEq, Repr

/-- The property that follows setting the attribute `name` to `value`. -/
def Property.ofSetting (name value : String) : Option Property :=
  match name with
  | "value" => some (.value (some value))
  | "checked" => some (.checked true)
  | "selected" => some (.selected true)
  | _ => none

/-- The property that follows removing the attribute `name`. -/
def Property.ofRemoval (name : String) : Option Property :=
  match name with
  | "value" => some (.value none)
  | "checked" => some (.checked false)
  | "selected" => some (.selected false)
  | _ => none

/-! ## Calls -/

/-- The kinds of answer a call has. -/
inductive Reply
  /-- It is done. -/
  | done
  /-- A node was made. -/
  | node
  /-- A listener was bound. -/
  | binding
  deriving DecidableEq, Repr

/-- The values of an answer, for nodes of type `ν` and bindings of type `β`. -/
abbrev Reply.Of (ν β : Type) : Reply → Type
  | done => Unit
  | node => ν
  | binding => β

/-- A call that may change the document, indexed by the kind of its answer. -/
inductive HostCall (ν β : Type) : Reply → Type
  /-- Replace what a node contains by a text. -/
  | setText (node : ν) (text : String) : HostCall ν β .done
  /-- Take a node out of its parent. -/
  | remove (node : ν) : HostCall ν β .done
  /-- Put a node in the place of another one. -/
  | replace (old new : ν) : HostCall ν β .done
  /-- Add a node as the last child of another one. -/
  | append (parent child : ν) : HostCall ν β .done
  /-- Set an attribute. -/
  | setAttribute (node : ν) (name value : String) : HostCall ν β .done
  /-- Remove an attribute. -/
  | removeAttribute (node : ν) (name : String) : HostCall ν β .done
  /-- Write a live property. -/
  | setProperty (node : ν) (property : Property) : HostCall ν β .done
  /-- Make a text node without parent. -/
  | createText (text : String) : HostCall ν β .node
  /-- Make an element without parent. -/
  | createElement (tag : String) : HostCall ν β .node
  /-- Bind a listener to a node for a type of event. -/
  | listen (node : ν) (eventType : String) (listener : ListenerId) : HostCall ν β .binding
  /-- Undo a binding. -/
  | unlisten (node : ν) (eventType : String) (binding : β) : HostCall ν β .done
  deriving DecidableEq, Repr

/-! ## Hosts -/

/-- How the interpreter sees a document with state `δ`, nodes `ν` and bindings `β`. -/
structure Host (δ ν β : Type) where
  /-- The identity of a node. -/
  key : δ → ν → NodeKey
  /-- The node that a run starts from, for a container. -/
  rootSeed : δ → ν → Option ν
  /-- The first child of a node. -/
  firstChild : δ → ν → Option ν
  /-- The sibling after a node. -/
  nextSibling : δ → ν → Option ν
  /-- A bound on the number of siblings that can follow one another. -/
  extent : δ → Nat
  /-- Answers a call, or refuses it. -/
  perform : {k : Reply} → HostCall ν β k → EStateM HostError δ (k.Of ν β)

/-- The same document with another start for its runs. -/
def Host.startingAt {δ ν β : Type} (H : Host δ ν β) (seed : Option ν) : Host δ ν β :=
  { H with rootSeed := fun _ _ => seed }

end TreeEdit
