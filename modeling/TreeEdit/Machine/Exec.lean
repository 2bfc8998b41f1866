import TreeEdit.Machine.Basic

/-!
# What instructions do

`Machine.exec` executes one instruction. An instruction collects all that it needs before it
changes anything outside the stack: its texts, then its nodes, then its strings. So an instruction
that fails on one of them has made no call to the document.

An instruction that creates a node pushes it. Setting and removing an attribute is two calls where
a live property follows the attribute.
-/

namespace TreeEdit.Machine

variable {δ ν β τ : Type}

/-- Removes a node and the siblings after it. Each time, the next sibling is looked up before the
node loses its place. No more than `steps` nodes are removed. -/
def removeFrom (H : Host δ ν β) : Nat → ν → Act δ ν β τ Unit
  | 0, _ => return
  | steps + 1, node => do
    let next := H.nextSibling (← get).doc node
    call H (.remove node)
    match next with
    | some sibling => removeFrom H steps sibling
    | none => return

/-- Executes an instruction that stands in the memory `mem`. -/
def exec (H : Host δ ν β) (mem : Binary.Bytes) : Instr → Act δ ν β τ Unit
  | .setText ptr len => do
    let text ← textAt mem ptr len
    let node ← onStack (Stack.topNode .setText)
    call H (.setText node text)
  | .removeSelfAndNextSiblings => do
    let node ← onStack (Stack.popNode .removeSelfAndNextSiblings)
    removeFrom H (H.extent (← get).doc + 1) node
  | .replaceWith => do
    let new ← onStack (Stack.popNode .replaceWith)
    let old ← onStack (Stack.popNode .replaceWith)
    call H (.replace old new)
    onStack (Stack.push (some new))
  | .setAttribute name value => do
    let node ← onStack (Stack.topNode .setAttribute)
    let name ← string name
    let value ← string value
    call H (.setAttribute node name value)
    follow H node (Property.ofSetting name value)
  | .removeAttribute name => do
    let node ← onStack (Stack.topNode .removeAttribute)
    let name ← string name
    call H (.removeAttribute node name)
    follow H node (Property.ofRemoval name)
  | .pushFirstChild => do
    let node ← onStack (Stack.topNode .pushFirstChild)
    onStack (Stack.push (H.firstChild (← get).doc node))
  | .popPushNextSibling => do
    let node ← onStack (Stack.popNode .popPushNextSibling)
    onStack (Stack.push (H.nextSibling (← get).doc node))
  | .pop => do
    let _ ← onStack (Stack.pop .pop)
  | .appendChild => do
    let child ← onStack (Stack.popNode .appendChild)
    let parent ← onStack (Stack.topNode .appendChild)
    call H (.append parent child)
  | .createText ptr len => do
    let text ← textAt mem ptr len
    let node ← call H (.createText text)
    onStack (Stack.push (some node))
  | .createElement tag => do
    let tag ← string tag
    let node ← call H (.createElement tag)
    onStack (Stack.push (some node))
  | .newListener event a b => do
    let node ← onStack (Stack.topNode .newListener)
    let eventType ← string event
    onScene (Scene.attach H node eventType (a, b))
  | .updateListener event a b => do
    let node ← onStack (Stack.topNode .updateListener)
    let key := H.key (← get).doc node
    let eventType ← string event
    onScene (Scene.update key eventType (a, b))
  | .removeListener event => do
    let node ← onStack (Stack.topNode .removeListener)
    let eventType ← string event
    onScene (Scene.detach H node eventType)
  | .addString ptr len id => do
    let text ← textAt mem ptr len
    modify fun m => { m with strings := m.strings.add text id }

end TreeEdit.Machine
