import TreeEdit.Proofs.Machine.Congruence

/-!
# What a program runs into

A program ends at its first error. That is a fault in its encoding, a string id, a slot, a node or a
listener that is not there, a stack without room, or a refusal of the document (`runAll_raises`). No
program runs into the errors that sessions raise themselves.
-/

namespace TreeEdit

open Step (Raises)

variable {δ ν β τ : Type} {H : Host δ ν β}

/-- The errors that a program can run into. The others are about sessions and about events. -/
def Error.OfProgram : Error → Prop
  | .unbalancedStack _ | .unmounted | .listenerRevoked _ | .noTrampoline => False
  | _ => True

/-! ## Parts of instructions -/

namespace Scene

variable {P : Error → Prop}

theorem call_raises (hhost : ∀ r, P (.host r)) {k : Reply} (c : HostCall ν β k) :
    Raises P (call H c : Act δ ν β τ _) := by
  intro s
  rw [ends_call, Step.Ends]
  cases H.perform c s.doc with
  | ok a d => trivial
  | error r d => exact hhost r

theorem release_raises (hhost : ∀ r, P (.host r)) (key : NodeKey) (eventType : String)
    (entry : Registry.Entry ν β) :
    Raises P (release H key eventType entry : Act δ ν β τ Unit) :=
  (Step.raises_modify _).bind fun _ => call_raises hhost _

/-- To attach a listener fails only where the document refuses. -/
theorem attach_raises (hhost : ∀ r, P (.host r)) (node : ν) (eventType : String)
    (handles : UInt32 × UInt32) :
    Raises P (attach H node eventType handles : Act δ ν β τ Unit) := by
  rw [attach_eq]
  refine Step.raises_get.bind fun s => Step.Raises.bind ?_ fun _ => Step.raises_get.bind fun _ =>
    (Step.raises_modify _).bind fun _ => (call_raises hhost _).bind fun _ => Step.raises_modify _
  cases s.listeners.entries.get? (H.key s.doc node, eventType) with
  | none => exact Step.raises_pure ()
  | some entry => exact (Step.raises_modify _).bind fun _ => release_raises hhost _ _ entry

theorem update_raises (hmissing : ∀ t, P (.missingListener t)) (node : NodeKey)
    (eventType : String) (handles : UInt32 × UInt32) :
    Raises P (update node eventType handles : Act δ ν β τ Unit) := by
  refine Step.raises_get.bind fun s => (Step.raises_ofExcept fun e he => ?_).bind fun _ =>
    Step.raises_modify _
  rw [Registry.update] at he
  split at he
  · cases he
  · cases he
    exact hmissing eventType

theorem detach_raises (hhost : ∀ r, P (.host r)) (hmissing : ∀ t, P (.missingListener t))
    (node : ν) (eventType : String) :
    Raises P (detach H node eventType : Act δ ν β τ Unit) := by
  rw [detach_eq]
  refine Step.raises_get.bind fun s => ?_
  cases s.listeners.entries.get? (H.key s.doc node, eventType) with
  | none => exact Step.raises_throw (hmissing eventType)
  | some entry => exact release_raises hhost _ _ entry

end Scene

theorem Stack.Basic.raises {α : Type} {x : EStateM Error (Stack ν) α} (h : Basic x) :
    Raises Error.OfProgram x := by
  cases h with
  | push slot =>
    rintro ⟨slots, limit⟩
    cases limit with
    | none => trivial
    | some limit =>
      by_cases hroom : slots.length < limit
      · rw [Step.Ends, push_of_room fun l hl => Option.some.inj hl ▸ hroom]
        trivial
      · rw [Step.Ends, push_of_full rfl (Nat.not_lt.mp hroom)]
        trivial
  | pop op | popNode op | topNode op =>
    rintro ⟨_ | ⟨_ | node, rest⟩, limit⟩ <;> trivial

/-! ## Programs -/

namespace Machine

theorem composes_raises :
    Composes (fun (x _ : Act δ ν β τ _) => Raises Error.OfProgram x) where
  bind := Step.Raises.bind
  ofExcept z := Step.raises_ofExcept fun e he => by
    cases z with
    | ok a => cases he
    | error f =>
      cases he
      trivial

theorem call_raises {k : Reply} (c : HostCall ν β k) :
    Raises Error.OfProgram (call H c : Act δ ν β τ _) :=
  Step.raises_onPart (Scene.call_raises (fun _ => trivial) c)

theorem callFollow_raises (c : HostCall ν β .done) (node : ν) (property : Option Property) :
    Raises Error.OfProgram (do call H c; follow H node property : Act δ ν β τ Unit) := by
  refine (call_raises c).bind fun _ => ?_
  cases property with
  | none => exact Step.raises_pure ()
  | some property => exact call_raises _

theorem congruence_raises :
    Congruence H H (fun (x _ : Act δ ν β τ _) => Raises Error.OfProgram x) where
  toComposes := composes_raises
  stack hx := Step.raises_onPart hx.raises
  string id := Step.raises_get.bind fun m => Step.raises_ofExcept fun e he => by
    rw [StringTable.error_of_get he]
    trivial
  look _ _ _ hf := Step.raises_get.bind fun _ => hf _
  call c _ := call_raises c
  dress _ _ _ := callFollow_raises _ _ _
  undress _ _ := callFollow_raises _ _ _
  attach _ _ _ := Step.raises_onPart (Scene.attach_raises (fun _ => trivial) _ _ _)
  update _ _ _ := Step.raises_onPart (Scene.update_raises (fun _ => trivial) _ _ _)
  detach _ _ :=
    Step.raises_onPart (Scene.detach_raises (fun _ => trivial) (fun _ => trivial) _ _)

theorem exec_raises (mem : Binary.Bytes) (i : Instr) :
    Raises Error.OfProgram (exec H mem i : Act δ ν β τ Unit) :=
  exec_congr congruence_raises mem i fun _ _ _ _ _ => Step.raises_modify _

/-- What a program runs into is never an error about a session or an event. -/
theorem runAll_raises (mem : Binary.Bytes) (traced : Bool) (spans : List Span) :
    Raises Error.OfProgram (runAll H mem traced spans : Act δ ν β τ Nat) := by
  refine @runAll_congr δ δ ν β τ H H (fun x _ => Raises Error.OfProgram x) mem traced traced
    composes_raises (fun offset i m => ?_) spans
  rw [Step.Ends, attempt_eq]
  exact exec_raises mem i (m.noted traced offset i)

end Machine

end TreeEdit
