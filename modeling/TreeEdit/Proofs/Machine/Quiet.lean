import TreeEdit.Machine.Exec
import TreeEdit.Proofs.Document.Handlers
import TreeEdit.Proofs.Machine.Steps

/-!
# Instructions that are not about listeners

Only three instructions are about listeners. What they do with one is a `Booking`, to be made for
the node on top of the stack and the type of event that a string id stands for. Any other
instruction leaves the listeners and all handlers alone, and never fails for want of a listener
(`exec_quiet`).
-/

namespace TreeEdit

open Document (host)

/-- What an instruction does with the listener of a node for a type of event. -/
inductive Booking
  /-- A listener is attached, in place of the one there may be. -/
  | new (handles : UInt32 × UInt32)
  /-- The handles of the listener are replaced. -/
  | update (handles : UInt32 × UInt32)
  /-- The listener is taken off. -/
  | remove
  deriving DecidableEq, Repr

/-- What an instruction does with a listener, with the string id of the type of event. -/
def Instr.booking? : Instr → Option (UInt32 × Booking)
  | .newListener event a b => some (event, .new (a, b))
  | .updateListener event a b => some (event, .update (a, b))
  | .removeListener event => some (event, .remove)
  | _ => none

/-- The error is not about a listener that is missing. -/
def Error.NotMissing (e : Error) : Prop :=
  ∀ t, e ≠ .missingListener t

namespace Machine

variable {κ τ α β : Type} {wrap : ListenerId → κ} {mem : Binary.Bytes}

/-- All that a machine has about listeners, in its registry and at its document. -/
def attendance (m : Machine (Document κ) NodeId Nat τ) :
    Registry NodeId Nat τ × (NodeId → List (Handler κ)) × Nat :=
  (m.listeners, m.doc.attendance)

/-- However the step ends, listeners and handlers are as before, and none was missing. -/
def Quiet (x : Act (Document κ) NodeId Nat τ α) : Prop :=
  ∀ m, Step.Ends x m (fun _ m' => m'.attendance = m.attendance)
    fun e m' => m'.attendance = m.attendance ∧ e.NotMissing

theorem quiet_pure (a : α) : Quiet (pure a : Act (Document κ) NodeId Nat τ α) := fun _ => rfl

theorem quiet_get : Quiet (get : Act (Document κ) NodeId Nat τ _) := fun _ => rfl

theorem Quiet.bind {x : Act (Document κ) NodeId Nat τ α}
    {f : α → Act (Document κ) NodeId Nat τ β} (hx : Quiet x) (hf : ∀ a, Quiet (f a)) :
    Quiet (x >>= f) := by
  intro m
  rw [Step.ends_bind]
  refine (hx m).mono (fun a m' h => ?_) fun e m' h => h
  exact (hf a m').mono (fun _ _ h' => h'.trans h) fun _ _ h' => ⟨h'.1.trans h, h'.2⟩

theorem quiet_onStack {x : EStateM Error (Stack NodeId) α}
    (hx : ∀ s, Step.Ends x s (fun _ _ => True) fun e _ => e.NotMissing) :
    Quiet (onStack x : Act (Document κ) NodeId Nat τ α) := by
  intro m
  rw [onStack, Step.ends_onPart]
  exact (hx m.stack).mono (fun _ _ _ => rfl) fun _ _ he => ⟨rfl, he⟩

theorem quiet_topNode (op : Opcode) :
    Quiet (onStack (Stack.topNode op) : Act (Document κ) NodeId Nat τ NodeId) := by
  refine quiet_onStack fun s => ?_
  match s with
  | ⟨some _ :: _, _⟩ => trivial
  | ⟨none :: _, _⟩ => exact nofun
  | ⟨[], _⟩ => exact nofun

theorem quiet_popNode (op : Opcode) :
    Quiet (onStack (Stack.popNode op) : Act (Document κ) NodeId Nat τ NodeId) := by
  refine quiet_onStack fun s => ?_
  match s with
  | ⟨some _ :: _, _⟩ => trivial
  | ⟨none :: _, _⟩ => exact nofun
  | ⟨[], _⟩ => exact nofun

theorem quiet_pop (op : Opcode) :
    Quiet (onStack (Stack.pop op) : Act (Document κ) NodeId Nat τ (Option NodeId)) := by
  refine quiet_onStack fun s => ?_
  match s with
  | ⟨_ :: _, _⟩ => trivial
  | ⟨[], _⟩ => exact nofun

theorem quiet_push (slot : Option NodeId) :
    Quiet (onStack (Stack.push slot) : Act (Document κ) NodeId Nat τ Unit) := by
  have hfull (limit : Nat) : (Error.stackOverflow limit).NotMissing := nofun
  refine quiet_onStack fun s => ?_
  by_cases hroom : ∀ limit, s.limit = some limit → s.depth < limit
  · rw [Step.Ends, Stack.push_of_room hroom]
    trivial
  · simp only [Classical.not_forall, Nat.not_lt] at hroom
    obtain ⟨limit, hl, hd⟩ := hroom
    rw [Step.Ends, Stack.push_of_full hl hd]
    exact hfull limit

theorem quiet_ofExcept {x : Except Error α} (hx : ∀ e, x = .error e → e.NotMissing) :
    Quiet (Step.ofExcept x : Act (Document κ) NodeId Nat τ α) := by
  intro m
  rw [Step.ends_ofExcept]
  exact ⟨fun _ _ => rfl, fun e he => ⟨rfl, hx e he⟩⟩

theorem quiet_string (id : UInt32) : Quiet (string id : Act (Document κ) NodeId Nat τ String) := by
  refine quiet_get.bind fun m => quiet_ofExcept fun e he => ?_
  obtain rfl := StringTable.error_of_get he
  exact nofun

theorem quiet_textAt (ptr len : UInt32) :
    Quiet (textAt mem ptr len : Act (Document κ) NodeId Nat τ String) := by
  refine quiet_ofExcept fun e he => ?_
  cases h : Binary.text mem ptr len with
  | ok t =>
    rw [h] at he
    cases he
  | error f =>
    rw [h] at he
    cases he
    exact nofun

theorem quiet_call {k : Reply} {c : HostCall NodeId Nat k} (hc : c.Mute) :
    Quiet (call (host wrap) c : Act (Document κ) NodeId Nat τ _) := by
  intro m
  rw [ends_call]
  refine (Document.perform_keeps_handlers wrap hc m.doc).mono (fun _ d hd => ?_) fun e d hd => ?_
  · exact congrArg (Prod.mk m.listeners) hd
  · exact ⟨congrArg (Prod.mk m.listeners) hd, nofun⟩

theorem quiet_follow (n : NodeId) (property : Option Property) :
    Quiet (follow (host wrap) n property : Act (Document κ) NodeId Nat τ Unit) := by
  cases property with
  | none => exact quiet_pure _
  | some property => exact quiet_call trivial

theorem quiet_removeFrom (steps : Nat) (n : NodeId) :
    Quiet (removeFrom (host wrap) steps n : Act (Document κ) NodeId Nat τ Unit) := by
  induction steps generalizing n with
  | zero => exact quiet_pure _
  | succ steps ih =>
    refine quiet_get.bind fun m => (quiet_call (by trivial)).bind fun _ => ?_
    split
    · exact ih _
    · exact quiet_pure _

/-- An instruction that is not about listeners. -/
theorem exec_quiet {i : Instr} (hi : i.booking? = none) :
    Quiet (exec (host wrap) mem i : Act (Document κ) NodeId Nat τ Unit) := by
  cases i with
  | setText ptr len =>
    exact (quiet_textAt ptr len).bind fun _ => (quiet_topNode _).bind fun _ => quiet_call (by trivial)
  | removeSelfAndNextSiblings =>
    exact (quiet_popNode _).bind fun _ => quiet_get.bind fun _ => quiet_removeFrom _ _
  | replaceWith =>
    exact (quiet_popNode _).bind fun _ => (quiet_popNode _).bind fun _ =>
      (quiet_call (by trivial)).bind fun _ => quiet_push _
  | setAttribute name value =>
    exact (quiet_topNode _).bind fun _ => (quiet_string _).bind fun _ =>
      (quiet_string _).bind fun _ => (quiet_call (by trivial)).bind fun _ => quiet_follow _ _
  | removeAttribute name =>
    exact (quiet_topNode _).bind fun _ => (quiet_string _).bind fun _ =>
      (quiet_call (by trivial)).bind fun _ => quiet_follow _ _
  | pushFirstChild =>
    exact (quiet_topNode _).bind fun _ => quiet_get.bind fun _ => quiet_push _
  | popPushNextSibling =>
    exact (quiet_popNode _).bind fun _ => quiet_get.bind fun _ => quiet_push _
  | pop => exact (quiet_pop _).bind fun _ => quiet_pure _
  | appendChild =>
    exact (quiet_popNode _).bind fun _ => (quiet_topNode _).bind fun _ => quiet_call (by trivial)
  | createText ptr len =>
    exact (quiet_textAt ptr len).bind fun _ => (quiet_call (by trivial)).bind fun _ => quiet_push _
  | createElement tag =>
    exact (quiet_string _).bind fun _ => (quiet_call (by trivial)).bind fun _ => quiet_push _
  | newListener | updateListener | removeListener => cases hi
  | addString ptr len id => exact (quiet_textAt ptr len).bind fun _ => fun _ => rfl

end Machine

end TreeEdit
