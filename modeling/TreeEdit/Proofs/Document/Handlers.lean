import TreeEdit.Proofs.Document.Relinking
import TreeEdit.Proofs.Document.Strokes

/-!
# Who touches handlers

The handlers of a document, and the number of the last binding, are touched by the two calls that
are about listeners and by no other call, whether it is done or refused (`perform_keeps_handlers`).
Binding a listener adds one handler at the end of the list of its node, under a new number, and
undoing a binding takes the handlers with its number out of that list; both need nothing but the
node.
-/

namespace TreeEdit

/-- The call has nothing to do with listeners. -/
def HostCall.Mute {ν β : Type} {k : Reply} : HostCall ν β k → Prop
  | .listen .. | .unlisten .. => False
  | _ => True

namespace Document

open Step (Keeps)

variable {κ : Type} {d d' : Document κ}

/-- The handlers of a node, in the order in which they were bound; an unknown node has none. -/
def handlers (d : Document κ) (id : NodeId) : List (Handler κ) :=
  ((d.node? id).map (·.handlers)).getD []

/-- All that is there about handlers: those of each node, and the number of the last binding. -/
def attendance (d : Document κ) : (NodeId → List (Handler κ)) × Nat :=
  (d.handlers, d.lastBinding)

theorem handlers_of_node? {id : NodeId} {n : Node κ} (h : d.node? id = some n) :
    d.handlers id = n.handlers := by
  rw [handlers, h]
  rfl

theorem handlers_of_unknown {id : NodeId} (h : ¬ d.Known id) : d.handlers id = [] := by
  rw [handlers, node?_eq_none_iff.mpr h]
  rfl

theorem known_of_handler {id : NodeId} {h : Handler κ} (hh : h ∈ d.handlers id) : d.Known id := by
  by_contra hid
  rw [handlers_of_unknown hid] at hh
  cases hh

/-! ## Calls that are not about listeners -/

theorem change_keeps (id : NodeId) {f : Node κ → Node κ}
    (hf : ∀ n, (f n).handlers = n.handlers) : Keeps attendance (change id f) := by
  intro d
  by_cases hid : d.Known id
  · have hok := change_of_known hid f
    rw [Step.Ends, hok]
    refine Prod.ext (funext fun id' => ?_) rfl
    show handlers _ id' = handlers _ id'
    rw [handlers, handlers, node?_of_change hok]
    split
    · rename_i he
      subst he
      cases d.node? id with
      | none => rfl
      | some n => exact hf n
    · rfl
  · rw [Step.Ends, change_of_unknown hid]

theorem allocate_keeps (content : Content) :
    Keeps attendance (allocate content : Change κ NodeId) := by
  intro d
  have hok : allocate content d
      = .ok ⟨d.nodes.size⟩ { d with nodes := d.nodes.push (.detached content) } := rfl
  rw [Step.Ends, hok]
  refine Prod.ext (funext fun id => ?_) rfl
  show handlers _ id = handlers _ id
  rw [handlers, handlers, node?_of_allocate hok]
  split
  · rename_i he
    subst he
    have hnew : d.node? ⟨d.nodes.size⟩ = none := node?_eq_none_iff.mpr (Nat.lt_irrefl d.nodes.size)
    rw [hnew]
    rfl
  · rfl

theorem attendance_strokes :
    Strokes fun d d' : Document κ => d'.attendance = d.attendance where
  chains := ⟨fun _ => rfl, fun h h' => h'.trans h⟩
  relink id _ hf := change_keeps id fun n => (hf n).2
  reword id _ := change_keeps id fun _ => rfl
  create content _ := allocate_keeps content

theorem changeElement_keeps (id : NodeId)
    (f : OrderedMap String String → Properties → OrderedMap String String × Properties) :
    Keeps attendance (changeElement id f : Change κ Unit) :=
  changeElement_leads attendance_strokes.chains id f fun _ => change_keeps id fun _ => rfl

/-- A call that is not about listeners leaves all handlers alone. -/
theorem perform_keeps_handlers (wrap : ListenerId → κ) {k : Reply} {c : HostCall NodeId Nat k}
    (hc : c.Mute) : Keeps attendance ((host wrap).perform c) := by
  cases c with
  | setAttribute id name value =>
    show Keeps attendance (setAttribute id name value)
    unfold setAttribute
    exact changeElement_keeps id _
  | removeAttribute id name =>
    show Keeps attendance (removeAttribute id name)
    unfold removeAttribute
    exact changeElement_keeps id _
  | setProperty id property =>
    show Keeps attendance (setProperty id property)
    unfold setProperty
    exact changeElement_keeps id _
  | listen | unlisten => exact hc.elim
  | _ => exact attendance_strokes.perform_leads wrap trivial

/-! ## Calls about listeners -/

/-- Changes the handlers of one node. -/
theorem handlers_of_change {id : NodeId} {f : Node κ → Node κ}
    {g : List (Handler κ) → List (Handler κ)} (hf : ∀ n, (f n).handlers = g n.handlers)
    (h : change id f d = .ok () d') :
    d'.handlers = Function.update d.handlers id (g (d.handlers id)) := by
  have hid : d.Known id := by
    by_contra hid
    cases (change_of_unknown hid f).symm.trans h
  obtain ⟨n, hn⟩ := known_iff.mp hid
  funext id'
  rw [Function.update_apply, handlers, node?_of_change h]
  by_cases he : id' = id
  · subst he
    rw [if_pos rfl, if_pos rfl, hn, handlers_of_node? hn]
    exact hf n
  · rw [if_neg (Ne.symm he), if_neg he]
    rfl

/-- A listener is bound under the next number, which is used up even if there is no such node. -/
theorem listen_ends (id : NodeId) (eventType : String) (callback : κ) :
    Step.Ends (listen id eventType callback) d
      (fun binding d' => d'.size = d.size ∧ binding = d.lastBinding + 1 ∧
        d'.lastBinding = d.lastBinding + 1 ∧ d'.handlers = Function.update d.handlers id
          (d.handlers id ++ [⟨eventType, d.lastBinding + 1, callback⟩]))
      fun _ d' => d'.handlers = d.handlers ∧ d.lastBinding ≤ d'.lastBinding ∧ ¬ d.Known id := by
  let d₀ : Document κ := { d with lastBinding := d.lastBinding + 1 }
  let f (n : Node κ) : Node κ :=
    { n with handlers := n.handlers ++ [⟨eventType, d.lastBinding + 1, callback⟩] }
  show Step.Ends (change id f >>= fun _ => pure (d.lastBinding + 1)) d₀ _ _
  rw [Step.ends_bind]
  by_cases hid : d₀.Known id
  · have hok := change_of_known hid f
    have hhandlers := handlers_of_change (g := fun hs => hs ++ [⟨eventType, d.lastBinding + 1,
      callback⟩]) (fun _ => rfl) hok
    rw [Step.Ends, hok]
    exact ⟨Array.size_modify, rfl, rfl, hhandlers⟩
  · rw [Step.Ends, change_of_unknown hid]
    exact ⟨rfl, Nat.le_succ _, hid⟩

/-- A binding is undone wherever its number stands at the node. -/
theorem unlisten_ends (id : NodeId) (binding : Nat) :
    Step.Ends (unlisten id binding : Change κ Unit) d
      (fun _ d' => d'.size = d.size ∧ d'.lastBinding = d.lastBinding ∧
        d'.handlers = Function.update d.handlers id
          ((d.handlers id).filter (·.binding ≠ binding)))
      fun _ d' => d'.handlers = d.handlers ∧ d.lastBinding ≤ d'.lastBinding ∧ ¬ d.Known id := by
  let f (n : Node κ) : Node κ := { n with handlers := n.handlers.filter (·.binding ≠ binding) }
  show Step.Ends (change id f) d _ _
  by_cases hid : d.Known id
  · have hok := change_of_known hid f
    have hhandlers := handlers_of_change (g := fun hs => hs.filter (·.binding ≠ binding))
      (fun _ => rfl) hok
    rw [Step.Ends, hok]
    exact ⟨Array.size_modify, rfl, hhandlers⟩
  · rw [Step.Ends, change_of_unknown hid]
    exact ⟨rfl, le_rfl, hid⟩

end Document

end TreeEdit
