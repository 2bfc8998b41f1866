import TreeEdit.Config
import TreeEdit.Machine.Run

/-!
# Sessions

A session runs programs on one container of a document. Ranges are queued first and then run
together, in the order in which they were queued, on the memory that holds them. Strings and
listeners last from one run to the next; the stack and the queue do not, whether the run succeeds
or not.

A session ends once and for good. After that every step of it fails with `Error.unmounted`; looking
at what it has come to is still possible.
-/

namespace TreeEdit

/-- Whether a session can still be used. -/
inductive Lifecycle
  | active
  | unmounted
  deriving DecidableEq, Repr

/-- The name of a state of life. -/
def Lifecycle.name : Lifecycle → String
  | active => "Active"
  | unmounted => "Unmounted"

/-- A machine at work on one container. -/
structure Session (δ ν β τ : Type) extends Machine δ ν β τ where
  /-- The container. -/
  root : ν
  /-- The ranges that wait to be run, the next one first. -/
  pending : List Span
  config : Config
  lifecycle : Lifecycle

namespace Session

open Binary

variable {δ ν β τ α : Type}

/-- A new session. -/
def start (doc : δ) (root : ν) (config : Config) : Session δ ν β τ :=
  { Machine.ofDoc doc config.maxStackDepth with root, pending := [], config, lifecycle := .active }

/-- Whether the session can still be used. -/
def isMounted (s : Session δ ν β τ) : Bool :=
  s.lifecycle = .active

/-- The number of the listener in use for a node and a type of event. -/
def listener? (H : Host δ ν β) (s : Session δ ν β τ) (node : ν) (eventType : String) :
    Option ListenerId :=
  s.listeners.find? (H.key s.doc node) eventType

/-! ## Steps -/

/-- A step of a session. -/
abbrev Act (δ ν β τ : Type) := EStateM Error (Session δ ν β τ)

/-- A step of the machine. -/
def onMachine (x : Machine.Act δ ν β τ α) : Act δ ν β τ α :=
  Step.onPart Session.toMachine (fun s m => { s with toMachine := m }) x

/-- A step on the scene. -/
def onScene (x : Scene.Act δ ν β τ α) : Act δ ν β τ α :=
  onMachine (Machine.onScene x)

/-- Fails if the session is over. -/
def ensureActive : Act δ ν β τ Unit := do
  match (← get).lifecycle with
  | .active => return
  | .unmounted => throw .unmounted

/-- Queues a range. Nothing is run yet, and the range is not looked at. -/
def queue (span : Span) : Act δ ν β τ Unit := do
  ensureActive
  modify fun s => { s with pending := s.pending ++ [span] }

/-- Runs the queued ranges on a stack that holds the node to start from. The answer is the number of
instructions executed. -/
def run (H : Host δ ν β) (mem : Bytes) : Act δ ν β τ Nat := do
  let s ← get
  onMachine (Machine.onStack (Stack.push (H.rootSeed s.doc s.root)))
  let executed ← onMachine (Machine.runAll H mem s.config.traced s.pending)
  let depth := (← get).stack.depth
  if s.config.strictStack ∧ depth > 1 then
    throw (.unbalancedStack depth)
  return executed

/-- Runs the queued ranges and forgets them. Without queued ranges nothing happens. After an error
the document keeps what was done to it, and the rest of the ranges is dropped. -/
def apply (H : Host δ ν β) (mem : Bytes) : Act δ ν β τ Unit := do
  ensureActive
  let ranges := (← get).pending.length
  if ranges ≠ 0 then
    let outcome ← Step.outcome (run H mem)
    modify fun s => { s with pending := [], stack := s.stack.clear }
    match outcome with
    | .ok executed => onScene (Scene.note (.applied ranges executed))
    | .error e =>
      onScene (Scene.note (.interrupted ranges e))
      throw e

/-- Stores a text under a string id, outside of any program. -/
def addString (text : String) (id : UInt32) : Act δ ν β τ Unit := do
  ensureActive
  modify fun s => { s with strings := s.strings.add text id }

/-- The text under a string id. -/
def getString (id : UInt32) : Act δ ν β τ String := do
  ensureActive
  Step.ofExcept ((← get).strings.get id)

/-- Installs a trampoline, for the listeners that there are and for those to come. -/
def installTrampoline (trampoline : τ) : Act δ ν β τ Unit := do
  ensureActive
  onScene (Scene.modifyListeners (·.install trampoline))

/-- Ends the session: takes all listeners off and forgets the queue, the stack and the strings. The
session is over even if the document refuses some of that; the first refusal is the error of the
step. -/
def unmount (H : Host δ ν β) : Act δ ν β τ Unit := do
  ensureActive
  modify fun s => { s with lifecycle := .unmounted }
  let listeners := (← get).listeners.size
  let outcome ← Step.outcome (onScene (Scene.teardown H))
  modify fun s => { s with pending := [], stack := s.stack.clear, strings := .empty }
  onScene (Scene.note (.unmounted listeners))
  Step.ofExcept outcome

end Session

end TreeEdit
