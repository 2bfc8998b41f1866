import TreeEdit.Binary.Memory
import TreeEdit.Listener.Scene
import TreeEdit.Machine.Stack
import TreeEdit.Machine.StringTable

/-!
# The machine

The machine that runs programs is a scene together with a stack of nodes and a string table. Its
steps keep what they have done when they fail.
-/

namespace TreeEdit

/-- A scene with what instructions work with. -/
structure Machine (δ ν β τ : Type) extends Scene δ ν β τ where
  stack : Stack ν
  strings : StringTable

namespace Machine

variable {δ ν β τ α : Type}

/-- The machine on a document, before it has run anything. `limit` bounds the depth of its stack. -/
def ofDoc (doc : δ) (limit : Option Nat) : Machine δ ν β τ :=
  { Scene.ofDoc doc with stack := .empty limit, strings := .empty }

/-- A step of a machine. -/
abbrev Act (δ ν β τ : Type) := EStateM Error (Machine δ ν β τ)

/-- A step on the scene. -/
def onScene (x : Scene.Act δ ν β τ α) : Act δ ν β τ α :=
  Step.onPart Machine.toScene (fun m s => { m with toScene := s }) x

/-- A step on the stack. -/
def onStack (x : EStateM Error (Stack ν) α) : Act δ ν β τ α :=
  Step.onPart Machine.stack (fun m s => { m with stack := s }) x

/-- Makes a call to the document. -/
def call (H : Host δ ν β) {k : Reply} (c : HostCall ν β k) : Act δ ν β τ (k.Of ν β) :=
  onScene (Scene.call H c)

/-- The text that a string id stands for. -/
def string (id : UInt32) : Act δ ν β τ String := do
  Step.ofExcept ((← get).strings.get id)

/-- The text at a place of the memory. -/
def textAt (mem : Binary.Bytes) (ptr len : UInt32) : Act δ ν β τ String :=
  Step.ofExcept ((Binary.text mem ptr len).mapError .fault)

/-- Makes the call that keeps a live property in step with its attribute, if there is one. -/
def follow (H : Host δ ν β) (node : ν) : Option Property → Act δ ν β τ Unit
  | some property => call H (.setProperty node property)
  | none => return

end Machine

end TreeEdit
