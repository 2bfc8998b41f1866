import TreeEdit.Proofs.Document.Strokes
import TreeEdit.Proofs.Machine.Steps

/-!
# Where the steps of a registry lead

Attaching and detaching listeners is writing to the registry and making two kinds of calls. What
leads from scene to scene along these leads along all steps of a registry, whatever the document
refuses on the way.
-/

namespace TreeEdit.Scene

open Step (Chains Leads)

variable {δ ν β τ : Type} {H : Host δ ν β} {R : Scene δ ν β τ → Scene δ ν β τ → Prop}

/-- `R` leads along what the steps of a registry are made of. -/
structure Chores (H : Host δ ν β) (R : Scene δ ν β τ → Scene δ ν β τ → Prop) : Prop where
  chains : Chains R
  listeners : ∀ c listeners, R c { c with listeners }
  replaced : ∀ c key eventType, R c { c with journal := c.journal.push (.replaced key eventType) }
  listen : ∀ node eventType id, Leads R (call H (.listen node eventType id))
  unlisten : ∀ node eventType binding, Leads R (call H (.unlisten node eventType binding))

theorem leads_call_of_doc {D : δ → δ → Prop} {k : Reply} {c : HostCall ν β k}
    (h : Leads D (H.perform c)) :
    Leads (fun c c' : Scene δ ν β τ => D c.doc c'.doc) (call H c) := by
  rw [Step.leads_iff]
  intro s
  rw [after_call]
  exact Step.leads_iff.mp h s.doc

/-- If `R` looks at the document only, the calls decide. -/
theorem chores_of_doc {D : δ → δ → Prop} (hD : Chains D)
    (h : ∀ {k : Reply} (c : HostCall ν β k), c.Plain → Leads D (H.perform c)) :
    Chores (τ := τ) H fun c c' => D c.doc c'.doc where
  chains := ⟨fun _ => hD.refl _, hD.trans⟩
  listeners _ _ := hD.refl _
  replaced _ _ _ := hD.refl _
  listen _ _ _ := leads_call_of_doc (h _ trivial)
  unlisten _ _ _ := leads_call_of_doc (h _ trivial)

namespace Chores

variable (h : Chores H R)

include h

theorem modifyListeners (f : Registry ν β τ → Registry ν β τ) :
    Leads R (Scene.modifyListeners f) :=
  Step.leads_modify fun c => h.listeners c (f c.listeners)

theorem release (key : NodeKey) (eventType : String) (entry : Registry.Entry ν β) :
    Leads R (Scene.release H key eventType entry) :=
  (h.modifyListeners _).bind h.chains fun _ => h.unlisten _ _ _

theorem attach (node : ν) (eventType : String) (handles : UInt32 × UInt32) :
    Leads R (Scene.attach H node eventType handles) := by
  rw [attach_eq]
  refine (Step.leads_get h.chains).bind h.chains fun s => Step.Leads.bind h.chains ?_ fun _ =>
    (Step.leads_get h.chains).bind h.chains fun s' => (h.modifyListeners _).bind h.chains fun _ =>
      (h.listen _ _ _).bind h.chains fun _ => h.modifyListeners _
  cases s.listeners.entries.get? (H.key s.doc node, eventType) with
  | none => exact Step.leads_pure h.chains ()
  | some entry =>
    have hnote : Leads R (note (.replaced (H.key s.doc node) eventType)) :=
      Step.leads_modify fun c => h.replaced c _ _
    exact hnote.bind h.chains fun _ => h.release _ _ entry

theorem update (key : NodeKey) (eventType : String) (handles : UInt32 × UInt32) :
    Leads R (Scene.update key eventType handles) :=
  (Step.leads_get h.chains).bind h.chains fun _ => (Step.leads_ofExcept h.chains _).bind h.chains
    fun _ => h.modifyListeners _

theorem detach (node : ν) (eventType : String) : Leads R (Scene.detach H node eventType) := by
  rw [detach_eq]
  refine (Step.leads_get h.chains).bind h.chains fun s => ?_
  cases s.listeners.entries.get? (H.key s.doc node, eventType) with
  | none => exact Step.leads_throw h.chains _
  | some entry => exact h.release _ _ entry

theorem releaseAll (entries : List ((NodeKey × String) × Registry.Entry ν β)) :
    Leads R (Scene.releaseAll H entries) := by
  induction entries with
  | nil => exact Step.leads_pure h.chains none
  | cons entry entries ih =>
    refine (Step.leads_outcome (h.release _ _ _)).bind h.chains fun first =>
      ih.bind h.chains fun later => ?_
    cases first with
    | error e => exact Step.leads_pure h.chains (some e)
    | ok _ => exact Step.leads_pure h.chains later

theorem teardown : Leads R (Scene.teardown H) := by
  refine (Step.leads_get h.chains).bind h.chains fun c => (h.releaseAll _).bind h.chains
    fun refusal => (h.modifyListeners _).bind h.chains fun _ => ?_
  cases refusal with
  | none => exact Step.leads_pure h.chains ()
  | some e => exact Step.leads_throw h.chains e

end Chores

end TreeEdit.Scene
