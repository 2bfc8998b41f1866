import TreeEdit.Proofs.Document.Handlers
import TreeEdit.Proofs.Machine.Congruence

/-!
# Where instructions lead

Whatever leads from machine to machine along the few parts that instructions are made of leads along
every instruction, and so along every range and every queue of ranges (`exec_leads`,
`runAll_leads`). Calls to the document that concern a listener are not parts of their own; they
come in whole steps of the scene. Nor are the two calls that set an attribute and its property.
-/

namespace TreeEdit.Machine

open Step (Chains Leads)

variable {δ ν β τ α : Type} {H : Host δ ν β} {Q : Machine δ ν β τ → Machine δ ν β τ → Prop}

/-- `Q` leads along the parts of all instructions but the one that stores a text. -/
structure Deeds (H : Host δ ν β) (Q : Machine δ ν β τ → Machine δ ν β τ → Prop) : Prop where
  chains : Chains Q
  stack : ∀ {α : Type} {x : EStateM Error (Stack ν) α}, Stack.Basic x → Leads Q (onStack x)
  call : ∀ {k : Reply} (c : HostCall ν β k), c.Shapes → Leads Q (call H c)
  dress : ∀ node name value, Leads Q (dress H node name value)
  undress : ∀ node name, Leads Q (undress H node name)
  attach : ∀ node eventType handles, Leads Q (onScene (Scene.attach H node eventType handles))
  update : ∀ key eventType handles, Leads Q (onScene (Scene.update key eventType handles))
  detach : ∀ node eventType, Leads Q (onScene (Scene.detach H node eventType))

/-- Along the storing of a text. -/
def Stores (Q : Machine δ ν β τ → Machine δ ν β τ → Prop) : Prop :=
  ∀ m text id, Q m { m with strings := m.strings.add text id }

/-- Along the notice of an attempt. -/
def Notes (Q : Machine δ ν β τ → Machine δ ν β τ → Prop) : Prop :=
  ∀ m offset i, Q m (m.noted true offset i)

theorem composes_leads (hQ : Chains Q) :
    Composes (fun (x _ : Act δ ν β τ _) => Leads Q x) where
  bind hx hf := hx.bind hQ hf
  ofExcept _ := Step.leads_ofExcept hQ _

theorem Deeds.congruence (h : Deeds H Q) : Congruence H H (fun x _ => Leads Q x) where
  toComposes := composes_leads h.chains
  stack := h.stack
  string _ := (Step.leads_get h.chains).bind h.chains fun _ => Step.leads_ofExcept h.chains _
  look _ _ _ hf := (Step.leads_get h.chains).bind h.chains fun _ => hf _
  call := h.call
  dress := h.dress
  undress := h.undress
  attach := h.attach
  update := h.update
  detach := h.detach

/-- If the instruction stores a text, `Q` has to lead along that. -/
theorem exec_leads (h : Deeds H Q) (mem : Binary.Bytes) (i : Instr)
    (hs : ∀ ptr len id, i = .addString ptr len id → Stores Q) : Leads Q (exec H mem i) :=
  exec_congr h.congruence mem i fun ptr len id hi text =>
    Step.leads_modify fun m => hs ptr len id hi m text id

theorem attempt_leads {mem : Binary.Bytes} {traced : Bool} (h : Deeds H Q) (hs : Stores Q)
    (hn : Notes Q) (offset : Nat) (i : Instr) : Leads Q (attempt H mem traced offset i) := by
  have hexec : Leads Q (exec H mem i) := exec_leads h mem i fun _ _ _ _ => hs
  cases traced with
  | false => exact hexec
  | true =>
    intro m
    rw [Step.Ends, attempt_eq]
    have hnoted := hn m offset i
    exact (hexec (m.noted true offset i)).mono (fun _ _ hm => h.chains.trans hnoted hm)
      fun _ _ hm => h.chains.trans hnoted hm

theorem runAll_leads {mem : Binary.Bytes} {traced : Bool} (h : Deeds H Q) (hs : Stores Q)
    (hn : Notes Q) (spans : List Span) : Leads Q (runAll H mem traced spans) :=
  @runAll_congr δ δ ν β τ H H (fun x _ => Leads Q x) mem traced traced (composes_leads h.chains)
    (attempt_leads h hs hn) spans

/-! ## To the machines that instructions are executed on -/

section Executions

variable {mem : Binary.Bytes} {traced : Bool} {m : Machine δ ν β τ}
  {execution : Machine δ ν β τ × Instr}

theorem noted_leads (h : Deeds H Q) (hn : Notes Q) (m : Machine δ ν β τ) (offset : Nat)
    (i : Instr) : Q m (m.noted traced offset i) := by
  cases traced with
  | false => exact h.chains.refl m
  | true => exact hn m offset i

theorem executionsFrom_leads (h : Deeds H Q) (hs : Stores Q) (hn : Notes Q) (c : Binary.Cursor)
    (he : execution ∈ executionsFrom H mem traced c m) : Q m execution.1 := by
  induction c using cursor_induction generalizing m with
  | ended c hend =>
    rw [executionsFrom_of_end hend] at he
    cases he
  | fault c f c' hend hr =>
    rw [executionsFrom_of_fault hr] at he
    cases he
  | past c i c' hr ih =>
    have hnoted : Q m (m.noted traced c.offset i) := noted_leads h hn m c.offset i
    rw [executionsFrom_of_read hr] at he
    -- either it is the first one, or the first one has succeeded and led to the rest
    rcases List.mem_cons.mp he with rfl | he
    · exact hnoted
    · have hexec := exec_leads h mem i (fun _ _ _ _ => hs) (m.noted traced c.offset i)
      rw [Step.Ends] at hexec
      cases hx : exec H mem i (m.noted traced c.offset i) with
      | ok u m' =>
        rw [hx] at he hexec
        exact h.chains.trans hnoted (h.chains.trans hexec (ih he))
      | error e m' =>
        rw [hx] at he
        cases he

theorem executionsRange_leads (h : Deeds H Q) (hs : Stores Q) (hn : Notes Q) {span : Span}
    (he : execution ∈ executionsRange H mem traced span m) : Q m execution.1 := by
  rw [executionsRange] at he
  cases hc : Binary.Cursor.ofRange mem span.start span.len with
  | error f =>
    rw [hc] at he
    cases he
  | ok c =>
    rw [hc] at he
    exact executionsFrom_leads h hs hn c he

/-- What leads along runs leads from their start to any machine on which they execute an
instruction. -/
theorem executionsAll_leads (h : Deeds H Q) (hs : Stores Q) (hn : Notes Q) {spans : List Span}
    (he : execution ∈ executionsAll H mem traced spans m) : Q m execution.1 := by
  induction spans generalizing m with
  | nil => cases he
  | cons span spans ih =>
    rw [executionsAll] at he
    rcases List.mem_append.mp he with he | he
    · exact executionsRange_leads h hs hn he
    · have hrange : Leads Q (runRange H mem traced span) :=
        @runRange_congr δ δ ν β τ H H (fun x _ => Leads Q x) mem traced traced
          (composes_leads h.chains) (attempt_leads h hs hn) span
      have hm := hrange m
      rw [Step.Ends] at hm
      cases hx : runRange H mem traced span m with
      | ok n m' =>
        rw [hx] at he hm
        exact h.chains.trans hm (ih he)
      | error e m' =>
        rw [hx] at he
        cases he

end Executions

/-- A property is written by a call, if there is one. -/
theorem follow_leads (hQ : Chains Q) {node : ν}
    (h : ∀ property, Leads Q (call H (.setProperty node property))) (property : Option Property) :
    Leads Q (follow H node property) := by
  cases property with
  | none => exact Step.leads_pure hQ ()
  | some property => exact h property

/-! ## What looks at the scene only -/

section Scene

variable {S : Scene δ ν β τ → Scene δ ν β τ → Prop}

theorem onScene_leads {x : Scene.Act δ ν β τ α} (hx : Leads S x) :
    Leads (fun m m' => S m.toScene m'.toScene) (onScene x) :=
  Step.leads_onPart hx fun _ _ h => h

theorem onStack_leads (hS : Chains S) (x : EStateM Error (Stack ν) α) :
    Leads (fun m m' : Machine δ ν β τ => S m.toScene m'.toScene) (onStack x) := by
  have hx : Leads (fun _ _ => True) x := Step.leads_iff.mpr fun _ => trivial
  exact Step.leads_onPart hx fun m _ _ => hS.refl m.toScene

theorem Deeds.ofScene (hS : Chains S)
    (call : ∀ {k : Reply} (c : HostCall ν β k), c.Shapes → Leads S (Scene.call H c))
    (dress : ∀ node name value,
      Leads (fun m m' : Machine δ ν β τ => S m.toScene m'.toScene)
        (Machine.dress H node name value))
    (undress : ∀ node name,
      Leads (fun m m' : Machine δ ν β τ => S m.toScene m'.toScene) (Machine.undress H node name))
    (attach : ∀ node eventType handles, Leads S (Scene.attach H node eventType handles))
    (update : ∀ key eventType handles, Leads S (Scene.update key eventType handles))
    (detach : ∀ node eventType, Leads S (Scene.detach H node eventType)) :
    Deeds H fun m m' => S m.toScene m'.toScene where
  chains := ⟨fun _ => hS.refl _, hS.trans⟩
  stack := fun {_ x} _ => onStack_leads hS x
  call c hc := onScene_leads (call c hc)
  dress := dress
  undress := undress
  attach _ _ _ := onScene_leads (attach _ _ _)
  update _ _ _ := onScene_leads (update _ _ _)
  detach _ _ := onScene_leads (detach _ _)

end Scene

/-! ## What looks at the stack only -/

/-- Along a step of the scene the stack stays as it is. -/
theorem stack_onScene {S : Stack ν → Stack ν → Prop} (hS : Chains S) (x : Scene.Act δ ν β τ α) :
    Leads (fun m m' : Machine δ ν β τ => S m.stack m'.stack) (onScene x) := by
  have hx : Leads (fun _ _ => True) x := Step.leads_iff.mpr fun _ => trivial
  exact Step.leads_onPart hx fun m _ _ => hS.refl m.stack

theorem Deeds.ofStack {S : Stack ν → Stack ν → Prop} (hS : Chains S)
    (stack : ∀ {α : Type} {x : EStateM Error (Stack ν) α}, Stack.Basic x → Leads S x) :
    Deeds (τ := τ) H fun m m' => S m.stack m'.stack := by
  have hchains : Chains fun m m' : Machine δ ν β τ => S m.stack m'.stack :=
    ⟨fun m => hS.refl m.stack, hS.trans⟩
  have hcall {k : Reply} (c : HostCall ν β k) :
      Leads (fun m m' : Machine δ ν β τ => S m.stack m'.stack) (Machine.call H c) :=
    stack_onScene hS (Scene.call H c)
  exact {
    chains := hchains
    stack := fun hx => Step.leads_onPart (stack hx) fun _ _ h => h
    call := fun c _ => hcall c
    dress := fun _ _ _ => (hcall _).bind hchains fun _ => follow_leads hchains (fun _ => hcall _) _
    undress := fun _ _ => (hcall _).bind hchains fun _ => follow_leads hchains (fun _ => hcall _) _
    attach := fun _ _ _ => stack_onScene hS _
    update := fun _ _ _ => stack_onScene hS _
    detach := fun _ _ => stack_onScene hS _ }

/-! ## Relations that no stack and no call breaks -/

/-- `Q` leads to any other stack, and along single calls of all kinds that concern no listener. -/
structure Parts (H : Host δ ν β) (Q : Machine δ ν β τ → Machine δ ν β τ → Prop) : Prop where
  chains : Chains Q
  stack : ∀ m stack, Q m { m with stack }
  call : ∀ {k : Reply} (c : HostCall ν β k), c.Mute → Leads Q (call H c)
  attach : ∀ node eventType handles, Leads Q (onScene (Scene.attach H node eventType handles))
  update : ∀ key eventType handles, Leads Q (onScene (Scene.update key eventType handles))
  detach : ∀ node eventType, Leads Q (onScene (Scene.detach H node eventType))

theorem Parts.onStack (h : Parts H Q) (x : EStateM Error (Stack ν) α) :
    Leads Q (Machine.onStack x : Act δ ν β τ α) := by
  have hx : Leads (fun _ _ => True) x := Step.leads_iff.mpr fun _ => trivial
  exact Step.leads_onPart hx fun m stack _ => h.stack m stack

theorem Parts.deeds (h : Parts H Q) : Deeds H Q where
  chains := h.chains
  stack := fun {_ x} _ => h.onStack x
  call c hc := h.call c (by cases c <;> trivial)
  dress _ _ _ := (h.call _ (by trivial)).bind h.chains fun _ =>
    follow_leads h.chains (fun _ => h.call _ (by trivial)) _
  undress _ _ := (h.call _ (by trivial)).bind h.chains fun _ =>
    follow_leads h.chains (fun _ => h.call _ (by trivial)) _
  attach := h.attach
  update := h.update
  detach := h.detach

end TreeEdit.Machine
