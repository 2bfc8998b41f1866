import TreeEdit.Host.Basic
import TreeEdit.OrderedMap
import TreeEdit.Text.Quoted

/-!
# Listeners and their registry

A listener stands for a node and a type of event. It holds the pair of handles that its owner wants
back with each event, and it can be revoked, for good. All listeners deliver through one trampoline,
which may be installed, replaced and removed at any time.

The registry keeps every listener that was ever made, so that one whose binding outlives its use
is found revoked and not mistaken for another one. Its entries name the listeners in use: at most
one for a node and a type, in the order in which they were attached.

This module holds what needs no document. The document is told of listeners by the steps of
`TreeEdit.Listener.Scene`.
-/

namespace TreeEdit

open Text.Numeral (decimal)

/-! ## Listeners -/

/-- A listener of a session. -/
structure Listener where
  eventType : String
  node : NodeKey
  /-- What the owner of the listener wants back with each event. -/
  handles : UInt32 × UInt32
  /-- Whether the listener has been taken off. -/
  revoked : Bool
  deriving DecidableEq, Repr

namespace Listener

/-- A listener that is in use. -/
def fresh (eventType : String) (node : NodeKey) (handles : UInt32 × UInt32) : Listener :=
  ⟨eventType, node, handles, false⟩

/-- The listener after it is taken off. Its handles are forgotten. -/
def revoke (l : Listener) : Listener :=
  { l with handles := (0, 0), revoked := true }

/-- A listener for inspection. -/
def render (l : Listener) : String :=
  let (a, b) := l.handles
  "Listener \x7b event_type: " ++ String.ofList (Text.Quoted.quote l.eventType.toList) ++
    ", node: NodeKey(" ++ decimal l.node.id ++ "), handles: (" ++ decimal a.toNat ++ ", " ++
    decimal b.toNat ++ "), revoked: " ++ (if l.revoked then "true" else "false") ++ " \x7d"

end Listener

/-- An event on its way to a trampoline. -/
structure Delivery (τ : Type) where
  trampoline : τ
  event : Event
  handles : UInt32 × UInt32
  deriving DecidableEq, Repr

/-! ## The registry -/

/-- A listener in use, with the node it was attached to and the binding that takes it off. -/
structure Registry.Entry (ν β : Type) where
  listener : ListenerId
  node : ν
  binding : β

/-- The listeners of a session on nodes `ν` with bindings `β`, and their trampoline of type `τ`. -/
structure Registry (ν β τ : Type) where
  /-- All listeners that were ever made, by their number. -/
  listeners : Array Listener
  /-- The listeners in use, by node and type of event. -/
  entries : OrderedMap (NodeKey × String) (Registry.Entry ν β)
  /-- Where events go, if anyone receives them. -/
  trampoline : Option τ

namespace Registry

variable {ν β τ : Type}

/-- The registry without listeners and without trampoline. -/
def empty : Registry ν β τ :=
  ⟨#[], .empty, none⟩

/-- The number of listeners in use. -/
def size (r : Registry ν β τ) : Nat :=
  r.entries.size

/-- Whether no listener is in use. -/
def isEmpty (r : Registry ν β τ) : Bool :=
  r.entries.isEmpty

/-- The listener with a number. -/
def listener? (r : Registry ν β τ) (id : ListenerId) : Option Listener :=
  r.listeners[id.index]?

/-- The number of the listener in use for a node and a type. -/
def find? (r : Registry ν β τ) (node : NodeKey) (eventType : String) : Option ListenerId :=
  (r.entries.get? (node, eventType)).map (·.listener)

/-- Makes a listener. Its number is the number of listeners made before. -/
def make (r : Registry ν β τ) (l : Listener) : ListenerId × Registry ν β τ :=
  (⟨r.listeners.size⟩, { r with listeners := r.listeners.push l })

/-- Changes a listener. -/
def modify (r : Registry ν β τ) (id : ListenerId) (f : Listener → Listener) : Registry ν β τ :=
  { r with listeners := r.listeners.modify id.index f }

/-- Takes a listener off. -/
def revoke (r : Registry ν β τ) (id : ListenerId) : Registry ν β τ :=
  r.modify id Listener.revoke

/-- The registry after a listener is put in use. -/
def enter (r : Registry ν β τ) (node : NodeKey) (eventType : String) (entry : Entry ν β) :
    Registry ν β τ :=
  { r with entries := r.entries.put (node, eventType) entry }

/-- The registry after the entry for a node and a type is taken out and its listener revoked. -/
def release (r : Registry ν β τ) (node : NodeKey) (eventType : String) (entry : Entry ν β) :
    Registry ν β τ :=
  { r with entries := r.entries.erase (node, eventType) }.revoke entry.listener

/-- Installs a trampoline, for the listeners that there are and for those to come. -/
def install (r : Registry ν β τ) (trampoline : τ) : Registry ν β τ :=
  { r with trampoline := some trampoline }

/-- Removes the trampoline. -/
def uninstall (r : Registry ν β τ) : Registry ν β τ :=
  { r with trampoline := none }

/-- Replaces the handles of the listener in use for a node and a type. -/
def update (r : Registry ν β τ) (node : NodeKey) (eventType : String) (handles : UInt32 × UInt32) :
    Except Error (Registry ν β τ) :=
  match r.find? node eventType with
  | some id => .ok (r.modify id fun l => { l with handles := handles })
  | none => .error (.missingListener eventType)

/-- What becomes of an event that comes to a listener. A number that the registry never gave out
counts as revoked. -/
def fire (r : Registry ν β τ) (id : ListenerId) (event : Event) : Except Error (Delivery τ) :=
  match r.listener? id with
  | none => .error (.listenerRevoked event.eventType)
  | some l =>
    if l.revoked then .error (.listenerRevoked l.eventType)
    else
      match r.trampoline with
      | none => .error .noTrampoline
      | some trampoline => .ok ⟨trampoline, event, l.handles⟩

/-! ## What the changes do -/

theorem find?_enter (r : Registry ν β τ) (node node' : NodeKey) (type type' : String)
    (entry : Entry ν β) :
    (r.enter node type entry).find? node' type'
      = if (node, type) = (node', type') then some entry.listener else r.find? node' type' := by
  simp only [find?, enter, OrderedMap.get?_put]
  split <;> rfl

theorem find?_release (r : Registry ν β τ) (node node' : NodeKey) (type type' : String)
    (entry : Entry ν β) :
    (r.release node type entry).find? node' type'
      = if (node, type) = (node', type') then none else r.find? node' type' := by
  simp only [find?, release, revoke, modify, OrderedMap.get?_erase]
  split <;> rfl

theorem listener?_modify (r : Registry ν β τ) (id id' : ListenerId) (f : Listener → Listener) :
    (r.modify id f).listener? id'
      = if id = id' then (r.listener? id').map f else r.listener? id' := by
  simp only [listener?, modify, Array.getElem?_modify, ListenerId.ext_iff]

end Registry

end TreeEdit
