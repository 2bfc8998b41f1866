import TreeEdit.Document.Basic

/-!
# Events at a node

An event that is dispatched to a node goes to the callbacks bound to that node for its type, in the
order in which they were bound, and to no other node. The first callback that fails ends the
dispatch. What a callback does is up to the caller: `answer` runs it on a state of the caller's
choice.
-/

namespace TreeEdit.Document

variable {κ σ : Type}

/-- The callbacks of a node for a type of event, in the order in which they were bound. -/
def callbacks (n : Node κ) (eventType : String) : List κ :=
  (n.handlers.filter (·.eventType = eventType)).map (·.callback)

/-- Dispatches an event to a node. The answer is the number of callbacks that ran. -/
def dispatch (d : Document κ) (answer : κ → Event → EStateM Error σ Unit) (id : NodeId)
    (eventType : String) : EStateM Error σ Nat :=
  match d.node? id with
  | none => throw (.host (.unknownNode id.index))
  | some n => do
    let called := callbacks n eventType
    called.forM (answer · ⟨eventType, id.key⟩)
    return called.length

end TreeEdit.Document
