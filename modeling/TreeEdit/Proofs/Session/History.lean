import TreeEdit.Proofs.Listener.Custody
import TreeEdit.Proofs.Machine.Leading
import TreeEdit.Proofs.Session.Steps

/-!
# Histories of a session

A session may be asked for anything, in any order and as often as its owner likes, and the document
may change in between. `History` keeps the log of the requests and of how each of them ended. What
leads from scene to scene along all that a session does leads along whole histories
(`Duties.history`).
-/

namespace TreeEdit

open Step (Chains Leads)

namespace Session

/-- What a session can be asked for. -/
inductive Request (τ : Type)
  | queue (span : Span)
  | apply (mem : Binary.Bytes)
  | addString (text : String) (id : UInt32)
  | getString (id : UInt32)
  | installTrampoline (trampoline : τ)
  | unmount

variable {δ ν β τ α : Type} {H : Host δ ν β} {E : δ → δ → Prop} {s s' s'' : Session δ ν β τ}

/-- What a session does for a request. The text that is looked up is the only answer. -/
def serve (H : Host δ ν β) : Request τ → Act δ ν β τ (Option String)
  | .queue span => do
    queue span
    return none
  | .apply mem => do
    apply H mem
    return none
  | .addString text id => do
    addString text id
    return none
  | .getString id => return some (← getString id)
  | .installTrampoline trampoline => do
    installTrampoline trampoline
    return none
  | .unmount => do
    unmount H
    return none

/-- Requests and how they ended, the latest first. -/
abbrev Log (τ : Type) := List (Request τ × Except Error (Option String))

/-- How a step ends: with an answer or with an error. -/
def ending (x : Act δ ν β τ α) (s : Session δ ν β τ) : Except Error α :=
  match x s with
  | .ok a _ => .ok a
  | .error e _ => .error e

/-- The session `s` has come to the last one by the requests of a log. Between two requests the
document may change along `E`. -/
inductive History (H : Host δ ν β) (E : δ → δ → Prop) (s : Session δ ν β τ) :
    Log τ → Session δ ν β τ → Prop
  | start : History H E s [] s
  | serve {log : Log τ} {s' : Session δ ν β τ} (h : History H E s log s') (r : Request τ) :
      History H E s ((r, ending (serve H r) s') :: log) (Step.after (serve H r) s')
  | edit {log : Log τ} {s' : Session δ ν β τ} (h : History H E s log s') {d : δ}
      (hd : E s'.doc d) : History H E s log { s' with doc := d }

theorem History.serve_ok {log : Log τ} {r : Request τ} {answer : Option String}
    (h : History H E s log s') (hr : Session.serve H r s' = .ok answer s'') :
    History H E s ((r, .ok answer) :: log) s'' := by
  have hnext := h.serve r
  rwa [ending, Step.after, hr] at hnext

theorem History.serve_error {log : Log τ} {r : Request τ} {e : Error}
    (h : History H E s log s') (hr : Session.serve H r s' = .error e s'') :
    History H E s ((r, .error e) :: log) s'' := by
  have hnext := h.serve r
  rwa [ending, Step.after, hr] at hnext

/-! ## What a session does to its scene -/

/-- `S` leads along all that a session does to its scene. -/
structure Duties (H : Host δ ν β) (S : Scene δ ν β τ → Scene δ ν β τ → Prop) : Prop where
  chains : Chains S
  deeds : Machine.Deeds H fun m m' => S m.toScene m'.toScene
  note : ∀ c notice, S c { c with journal := c.journal.push notice }
  install : ∀ c trampoline, S c { c with listeners := c.listeners.install trampoline }
  teardown : Leads S (Scene.teardown H)

/-- What leads along all steps of a registry and along all other calls. -/
theorem Duties.ofCustody {S : Scene δ ν β τ → Scene δ ν β τ → Prop} (h : Scene.Custody H S)
    (call : ∀ {k : Reply} {c : HostCall ν β k}, c.Mute → Leads S (Scene.call H c)) :
    Duties H S := by
  have parts : Machine.Parts H fun m m' : Machine δ ν β τ => S m.toScene m'.toScene := {
    chains := ⟨fun _ => h.chains.refl _, h.chains.trans⟩
    stack := fun m _ => h.chains.refl m.toScene
    call := fun _ hc => Machine.onScene_leads (call hc)
    attach := fun _ _ _ => Machine.onScene_leads (h.attach _ _ _)
    update := fun _ _ _ => Machine.onScene_leads (h.update _ _ _)
    detach := fun _ _ => Machine.onScene_leads (h.detach _ _) }
  exact ⟨h.chains, parts.deeds, h.note, h.install, h.teardown⟩

theorem onMachine_leads {Q : Machine δ ν β τ → Machine δ ν β τ → Prop}
    {x : Machine.Act δ ν β τ α} (hx : Leads Q x) :
    Leads (fun s s' => Q s.toMachine s'.toMachine) (onMachine x) :=
  Step.leads_onPart hx fun _ _ h => h

/-- What leads along the deeds of a machine leads along what a run does. -/
theorem work_leads {Q : Machine δ ν β τ → Machine δ ν β τ → Prop} (h : Machine.Deeds H Q)
    (hs : Machine.Stores Q) (hn : Machine.Notes Q) (mem : Binary.Bytes) (s : Session δ ν β τ) :
    Leads Q (work H mem s) :=
  (h.stack (.push _)).bind h.chains fun _ => Machine.runAll_leads h hs hn _

theorem onScene_leads {S : Scene δ ν β τ → Scene δ ν β τ → Prop} {x : Scene.Act δ ν β τ α}
    (hx : Leads S x) : Leads (fun s s' => S s.toScene s'.toScene) (onScene x) :=
  onMachine_leads (Machine.onScene_leads hx)

namespace Duties

variable {S : Scene δ ν β τ → Scene δ ν β τ → Prop} (h : Duties H S)

include h

theorem chainsAt : Chains fun s s' : Session δ ν β τ => S s.toScene s'.toScene :=
  ⟨fun _ => h.chains.refl _, h.chains.trans⟩

theorem ensureActive :
    Leads (fun s s' => S s.toScene s'.toScene) (ensureActive : Act δ ν β τ Unit) :=
  fun _ => ends_ensureActive (fun _ => h.chains.refl _) (h.chains.refl _)

/-- Along a change that leaves the scene alone. -/
theorem modify {f : Session δ ν β τ → Session δ ν β τ}
    (hf : ∀ s, (f s).toScene = s.toScene) :
    Leads (fun s s' => S s.toScene s'.toScene) (modify f : Act δ ν β τ Unit) :=
  Step.leads_modify fun s => (hf s).symm ▸ h.chains.refl s.toScene

theorem note_leads (notice : Notice) :
    Leads (fun s s' : Session δ ν β τ => S s.toScene s'.toScene)
      (onScene (Scene.note notice)) :=
  onScene_leads (Step.leads_modify fun c => h.note c notice)

theorem run (mem : Binary.Bytes) :
    Leads (fun s s' => S s.toScene s'.toScene) (run H mem : Act δ ν β τ Nat) := by
  rw [Step.leads_iff]
  intro s
  rw [after_run]
  exact Step.leads_iff.mp (work_leads h.deeds (fun _ _ _ => h.chains.refl _)
    (fun m offset i => h.note m.toScene _) mem s) s.toMachine

theorem apply (mem : Binary.Bytes) :
    Leads (fun s s' => S s.toScene s'.toScene) (apply H mem : Act δ ν β τ Unit) := by
  have hc := h.chainsAt
  refine h.ensureActive.bind hc fun _ => (Step.leads_get hc).bind hc fun s => ?_
  dsimp only
  split
  · refine (Step.leads_outcome (h.run mem)).bind hc fun outcome =>
      (h.modify fun _ => rfl).bind hc fun _ => ?_
    cases outcome with
    | ok executed => exact h.note_leads _
    | error e => exact (h.note_leads _).bind hc fun _ => Step.leads_throw hc e
  · exact Step.leads_pure hc ()

theorem unmount :
    Leads (fun s s' => S s.toScene s'.toScene) (unmount H : Act δ ν β τ Unit) := by
  have hc := h.chainsAt
  refine h.ensureActive.bind hc fun _ => ?_
  refine (h.modify fun _ => rfl).bind hc fun _ => ?_
  refine (Step.leads_get hc).bind hc fun s => ?_
  refine (Step.leads_outcome (onScene_leads h.teardown)).bind hc fun outcome => ?_
  refine (h.modify fun _ => rfl).bind hc fun _ => ?_
  exact (h.note_leads _).bind hc fun _ => Step.leads_ofExcept hc outcome

theorem serve (r : Request τ) :
    Leads (fun s s' => S s.toScene s'.toScene) (serve H r : Act δ ν β τ _) := by
  have hc := h.chainsAt
  have answered {x : Act δ ν β τ Unit} (hx : Leads (fun s s' => S s.toScene s'.toScene) x) :
      Leads (fun s s' => S s.toScene s'.toScene)
        (do x; return none : Act δ ν β τ (Option String)) :=
    hx.bind hc fun _ => Step.leads_pure hc none
  cases r with
  | queue span =>
    exact answered (h.ensureActive.bind hc fun _ => h.modify fun _ => rfl)
  | apply mem => exact answered (h.apply mem)
  | addString text id =>
    exact answered (h.ensureActive.bind hc fun _ => h.modify fun _ => rfl)
  | getString id =>
    exact (h.ensureActive.bind hc fun _ => (Step.leads_get hc).bind hc fun _ =>
      Step.leads_ofExcept hc _).bind hc fun _ => Step.leads_pure hc _
  | installTrampoline trampoline =>
    exact answered (h.ensureActive.bind hc fun _ =>
      onScene_leads (Step.leads_modify fun c => h.install c trampoline))
  | unmount => exact answered h.unmount

/-- What leads along all that a session does leads along its histories, if it also leads along what
happens to the document in between. -/
theorem history (hE : ∀ c d, E c.doc d → S c { c with doc := d }) {log : Log τ}
    (hs : History H E s log s') : S s.toScene s'.toScene := by
  induction hs with
  | start => exact h.chains.refl _
  | @serve log s₁ _ r ih => exact h.chains.trans ih (Step.leads_iff.mp (h.serve r) s₁)
  | edit _ hd ih => exact h.chains.trans ih (hE _ _ hd)

end Duties

end Session

end TreeEdit
