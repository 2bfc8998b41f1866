import TreeEdit.Journal
import TreeEdit.Listener.Registry
import TreeEdit.Step

/-!
# Attaching listeners to a document

A scene is a document together with the registry of the listeners on it and the journal. Its steps
change the document through its host, and keep the registry in step with it. What the
document refuses comes back as `Error.host`.

A listener is revoked before the document is asked to take it off, so that it delivers nothing any
more even if the document refuses. It is entered only after the document has bound it.
-/

namespace TreeEdit

/-- A document, the listeners on it and the journal. -/
structure Scene (δ ν β τ : Type) where
  doc : δ
  listeners : Registry ν β τ
  journal : Journal

namespace Scene

variable {δ ν β τ : Type}

/-- A document without listeners and an empty journal. -/
def ofDoc (doc : δ) : Scene δ ν β τ :=
  ⟨doc, .empty, #[]⟩

/-- A step on a scene. -/
abbrev Act (δ ν β τ : Type) := EStateM Error (Scene δ ν β τ)

/-- Notes something in the journal. -/
def note (notice : Notice) : Act δ ν β τ Unit :=
  modify fun s => { s with journal := s.journal.push notice }

/-- Changes the registry. -/
def modifyListeners (f : Registry ν β τ → Registry ν β τ) : Act δ ν β τ Unit :=
  modify fun s => { s with listeners := f s.listeners }

/-- Makes a call to the document. -/
def call (H : Host δ ν β) {k : Reply} (c : HostCall ν β k) : Act δ ν β τ (k.Of ν β) := fun s =>
  match H.perform c s.doc with
  | .ok a doc => .ok a { s with doc := doc }
  | .error e doc => .error (.host e) { s with doc := doc }

/-- Takes the listener of an entry off. -/
def release (H : Host δ ν β) (node : NodeKey) (eventType : String) (entry : Registry.Entry ν β) :
    Act δ ν β τ Unit := do
  modifyListeners (·.release node eventType entry)
  call H (.unlisten entry.node eventType entry.binding)

/-- Attaches a listener to a node. One that the node has for the same type is taken off first. -/
def attach (H : Host δ ν β) (node : ν) (eventType : String) (handles : UInt32 × UInt32) :
    Act δ ν β τ Unit := do
  let key := H.key (← get).doc node
  match (← get).listeners.entries.get? (key, eventType) with
  | some entry =>
    note (.replaced key eventType)
    release H key eventType entry
  | none => pure ()
  let (id, listeners) := (← get).listeners.make (.fresh eventType key handles)
  modifyListeners fun _ => listeners
  let binding ← call H (.listen node eventType id)
  modifyListeners (·.enter key eventType ⟨id, node, binding⟩)

/-- Replaces the handles of a listener in use. The document is not concerned. -/
def update (node : NodeKey) (eventType : String) (handles : UInt32 × UInt32) :
    Act δ ν β τ Unit := do
  let listeners ← Step.ofExcept ((← get).listeners.update node eventType handles)
  modifyListeners fun _ => listeners

/-- Takes the listener of a node for a type off. -/
def detach (H : Host δ ν β) (node : ν) (eventType : String) : Act δ ν β τ Unit := do
  let key := H.key (← get).doc node
  match (← get).listeners.entries.get? (key, eventType) with
  | some entry => release H key eventType entry
  | none => throw (.missingListener eventType)

/-- Takes the listeners of some entries off, going on after refusals. The answer is the first
refusal. -/
def releaseAll (H : Host δ ν β) : List ((NodeKey × String) × Registry.Entry ν β) →
    Act δ ν β τ (Option Error)
  | [] => return none
  | ((node, eventType), entry) :: rest => do
    let first ← Step.outcome (release H node eventType entry)
    let later ← releaseAll H rest
    match first with
    | .error e => return some e
    | .ok () => return later

/-- Takes every listener off, in the order in which they were attached, and removes the trampoline.
That is done also if the document refuses; the first refusal is the error of the step. -/
def teardown (H : Host δ ν β) : Act δ ν β τ Unit := do
  let refusal ← releaseAll H (← get).listeners.entries.entries
  modifyListeners (·.uninstall)
  match refusal with
  | some e => throw e
  | none => return

end Scene

end TreeEdit
