import TreeEdit.Proofs.Document.Strokes
import TreeEdit.Proofs.Machine.Executions
import TreeEdit.Proofs.Machine.Steps

/-!
# Relations that instructions respect

Instructions are put together from few parts: steps of the stack, looks at the document and at the
string table, calls, and the steps of the scene that are about listeners. A relation between steps
that holds along these parts, and along composition, holds along every instruction (`exec_congr`),
and then along every range and every queue of ranges (`runAll_congr`). The two sides may be steps of
one machine or of two; what is true of all steps of one machine is the case where the second side
does not matter.

Setting or removing an attribute is one part together with the call to the live property that
follows it, so that a relation need not hold between the two calls.
-/

namespace TreeEdit

/-- The steps of the stack that instructions take. -/
inductive Stack.Basic {ν : Type} : {α : Type} → EStateM Error (Stack ν) α → Prop
  | push (slot : Option ν) : Basic (push slot)
  | pop (op : Opcode) : Basic (pop op)
  | popNode (op : Opcode) : Basic (popNode op)
  | topNode (op : Opcode) : Basic (topNode op)

/-- What instructions look for in a document, seen through two hosts. -/
inductive Host.Sight {δ δ' ν β : Type} (H : Host δ ν β) (H' : Host δ' ν β) :
    {ω : Type} → (δ → ω) → (δ' → ω) → Prop
  | key (node : ν) : Sight H H' (H.key · node) (H'.key · node)
  | firstChild (node : ν) : Sight H H' (H.firstChild · node) (H'.firstChild · node)
  | nextSibling (node : ν) : Sight H H' (H.nextSibling · node) (H'.nextSibling · node)
  | extent : Sight H H' H.extent H'.extent

namespace Machine

variable {δ δ' ν β τ : Type} {H : Host δ ν β} {H' : Host δ' ν β} {node : ν}
  {T : ∀ {α : Type}, Act δ ν β τ α → Act δ' ν β τ α → Prop}

/-- Stores a text. -/
def store (text : String) (id : UInt32) : Act δ ν β τ Unit :=
  modify fun m => { m with strings := m.strings.add text id }

/-- Sets an attribute, and the live property that follows it. -/
def dress (H : Host δ ν β) (node : ν) (name value : String) : Act δ ν β τ Unit := do
  call H (.setAttribute node name value)
  follow H node (Property.ofSetting name value)

/-- Removes an attribute, and clears the live property that follows it. -/
def undress (H : Host δ ν β) (node : ν) (name : String) : Act δ ν β τ Unit := do
  call H (.removeAttribute node name)
  follow H node (Property.ofRemoval name)

/-- `T` relates composed steps if it relates what they are composed of, and steps that only answer
or find a program at fault. -/
structure Composes (T : ∀ {α : Type}, Act δ ν β τ α → Act δ' ν β τ α → Prop) : Prop where
  bind : ∀ {α γ : Type} {x : Act δ ν β τ α} {y : Act δ' ν β τ α} {f : α → Act δ ν β τ γ}
    {g : α → Act δ' ν β τ γ}, T x y → (∀ a, T (f a) (g a)) → T (x >>= f) (y >>= g)
  ofExcept : ∀ {α : Type} (z : Except Fault α),
    T (Step.ofExcept (z.mapError .fault)) (Step.ofExcept (z.mapError .fault))

/-- `T` relates the parts of all instructions but the one that stores a text. -/
structure Congruence (H : Host δ ν β) (H' : Host δ' ν β)
    (T : ∀ {α : Type}, Act δ ν β τ α → Act δ' ν β τ α → Prop) : Prop extends Composes @T where
  stack : ∀ {α : Type} {x : EStateM Error (Stack ν) α}, Stack.Basic x → T (onStack x) (onStack x)
  string : ∀ id, T (string id) (string id)
  look : ∀ {ω γ : Type} {v : δ → ω} {w : δ' → ω}, H.Sight H' v w →
    ∀ (f : ω → Act δ ν β τ γ) (g : ω → Act δ' ν β τ γ), (∀ c, T (f c) (g c)) →
      T (get >>= fun m => f (v m.doc)) (get >>= fun m => g (w m.doc))
  call : ∀ {k : Reply} (c : HostCall ν β k), c.Shapes → T (call H c) (call H' c)
  dress : ∀ node name value, T (dress H node name value) (dress H' node name value)
  undress : ∀ node name, T (undress H node name) (undress H' node name)
  attach : ∀ node eventType handles, T (onScene (Scene.attach H node eventType handles))
    (onScene (Scene.attach H' node eventType handles))
  update : ∀ key eventType handles, T (onScene (Scene.update key eventType handles))
    (onScene (Scene.update key eventType handles))
  detach : ∀ node eventType, T (onScene (Scene.detach H node eventType))
    (onScene (Scene.detach H' node eventType))

/-! ## Instructions -/

/-- A relation between the calls of a part holds of the part. -/
theorem Composes.callFollow (h : Composes T) {c : HostCall ν β .done}
    (hc : T (call H c) (call H' c))
    (hp : ∀ property, T (call H (.setProperty node property)) (call H' (.setProperty node property)))
    (property : Option Property) :
    T (do call H c; follow H node property) (do call H' c; follow H' node property) := by
  refine h.bind hc fun _ => ?_
  cases property with
  | none => exact h.ofExcept (.ok ())
  | some property => exact hp property

theorem Congruence.topNode (h : Congruence H H' T) (op : Opcode) :
    T (onStack (Stack.topNode op)) (onStack (Stack.topNode op)) :=
  h.stack (.topNode op)

theorem Congruence.popNode (h : Congruence H H' T) (op : Opcode) :
    T (onStack (Stack.popNode op)) (onStack (Stack.popNode op)) :=
  h.stack (.popNode op)

theorem Congruence.push (h : Congruence H H' T) (slot : Option ν) :
    T (onStack (Stack.push slot)) (onStack (Stack.push slot)) :=
  h.stack (.push slot)

theorem Congruence.textAt (h : Congruence H H' T) (mem : Binary.Bytes) (ptr len : UInt32) :
    T (textAt mem ptr len) (textAt mem ptr len) :=
  h.ofExcept _

theorem removeFrom_succ (H : Host δ ν β) (steps : Nat) (node : ν) :
    (removeFrom H (steps + 1) node : Act δ ν β τ Unit) = (do
      let m ← get
      call H (.remove node)
      (H.nextSibling m.doc node).elim (pure ()) (removeFrom H steps)) := by
  funext m
  rw [removeFrom, Step.get_bind, Step.get_bind]
  cases H.nextSibling m.doc node <;> rfl

theorem Congruence.removeFrom (h : Congruence H H' T) (steps : Nat) (node : ν) :
    T (removeFrom H steps node) (removeFrom H' steps node) := by
  induction steps generalizing node with
  | zero => exact h.ofExcept (.ok ())
  | succ steps ih =>
    rw [removeFrom_succ, removeFrom_succ]
    refine h.look (.nextSibling node)
      (fun next => Machine.call H (.remove node) >>= fun _ =>
        next.elim (pure ()) (Machine.removeFrom H steps))
      (fun next => Machine.call H' (.remove node) >>= fun _ =>
        next.elim (pure ()) (Machine.removeFrom H' steps))
      fun next => h.bind (h.call (.remove node) trivial) fun _ => ?_
    cases next with
    | none => exact h.ofExcept (.ok ())
    | some sibling => exact ih sibling

/-- If the instruction stores a text, `T` has to relate that. -/
theorem exec_congr (h : Congruence H H' T) (mem : Binary.Bytes) (i : Instr)
    (hs : ∀ ptr len id, i = .addString ptr len id → ∀ text, T (store text id) (store text id)) :
    T (exec H mem i) (exec H' mem i) := by
  cases i with
  | setText ptr len =>
    exact h.bind (h.textAt mem ptr len) fun _ => h.bind (h.topNode _) fun _ => h.call _ trivial
  | removeSelfAndNextSiblings =>
    exact h.bind (h.popNode _) fun node => h.look .extent
      (fun n => removeFrom H (n + 1) node) (fun n => removeFrom H' (n + 1) node)
      fun n => h.removeFrom (n + 1) node
  | replaceWith =>
    exact h.bind (h.popNode _) fun _ => h.bind (h.popNode _) fun _ =>
      h.bind (h.call _ trivial) fun _ => h.push _
  | setAttribute name value =>
    exact h.bind (h.topNode _) fun _ => h.bind (h.string name) fun _ =>
      h.bind (h.string value) fun _ => h.dress _ _ _
  | removeAttribute name =>
    exact h.bind (h.topNode _) fun _ => h.bind (h.string name) fun _ => h.undress _ _
  | pushFirstChild =>
    exact h.bind (h.topNode _) fun node => h.look (.firstChild node)
      (fun slot => onStack (Stack.push slot)) (fun slot => onStack (Stack.push slot)) h.push
  | popPushNextSibling =>
    exact h.bind (h.popNode _) fun node => h.look (.nextSibling node)
      (fun slot => onStack (Stack.push slot)) (fun slot => onStack (Stack.push slot)) h.push
  | pop => exact h.bind (h.stack (.pop _)) fun _ => h.ofExcept (.ok ())
  | appendChild =>
    exact h.bind (h.popNode _) fun _ => h.bind (h.topNode _) fun _ => h.call _ trivial
  | createText ptr len =>
    exact h.bind (h.textAt mem ptr len) fun _ => h.bind (h.call _ trivial) fun _ => h.push _
  | createElement tag =>
    exact h.bind (h.string tag) fun _ => h.bind (h.call _ trivial) fun _ => h.push _
  | newListener event a b =>
    exact h.bind (h.topNode _) fun _ => h.bind (h.string event) fun _ => h.attach _ _ _
  | updateListener event a b =>
    exact h.bind (h.topNode _) fun node => h.look (.key node)
      (fun key => string event >>= fun eventType => onScene (Scene.update key eventType (a, b)))
      (fun key => string event >>= fun eventType => onScene (Scene.update key eventType (a, b)))
      fun _ => h.bind (h.string event) fun _ => h.update _ _ _
  | removeListener event =>
    exact h.bind (h.topNode _) fun _ => h.bind (h.string event) fun _ => h.detach _ _
  | addString ptr len id =>
    exact h.bind (h.textAt mem ptr len) fun text => hs ptr len id rfl text

/-! ## Ranges -/

variable {mem : Binary.Bytes} {traced traced' : Bool}

theorem runFrom_congr (h : Composes T)
    (ha : ∀ offset i, T (attempt H mem traced offset i) (attempt H' mem traced' offset i))
    (c : Binary.Cursor) (executed : Nat) :
    T (runFrom H mem traced c executed) (runFrom H' mem traced' c executed) := by
  induction c using cursor_induction generalizing executed with
  | ended c hend =>
    rw [runFrom_of_end hend, runFrom_of_end hend]
    exact h.ofExcept (.ok executed)
  | fault c f c' hend hr =>
    rw [runFrom_of_fault hend hr, runFrom_of_fault hend hr]
    exact h.ofExcept (.error _)
  | past c i c' hr ih =>
    rw [runFrom_of_read hr, runFrom_of_read hr]
    exact h.bind (ha c.offset i) fun _ => ih (executed + 1)

theorem runRange_congr (h : Composes T)
    (ha : ∀ offset i, T (attempt H mem traced offset i) (attempt H' mem traced' offset i))
    (span : Span) : T (runRange H mem traced span) (runRange H' mem traced' span) :=
  h.bind (h.ofExcept _) fun c => runFrom_congr h ha c 0

/-- What relates the attempts at single instructions relates runs of whole queues. -/
theorem runAll_congr (h : Composes T)
    (ha : ∀ offset i, T (attempt H mem traced offset i) (attempt H' mem traced' offset i))
    (spans : List Span) : T (runAll H mem traced spans) (runAll H' mem traced' spans) := by
  induction spans with
  | nil => exact h.ofExcept (.ok 0)
  | cons span spans ih =>
    exact h.bind (runRange_congr h ha span) fun _ => h.bind ih fun _ => h.ofExcept (.ok _)

end Machine

end TreeEdit
