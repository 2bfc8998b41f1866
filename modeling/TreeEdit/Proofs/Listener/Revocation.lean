import TreeEdit.Proofs.Listener.Upkeep

/-!
# Listeners that were taken off

Listeners are attached, updated and detached on a document that may refuse any call, and that may
be changed by others in all that is not about listeners. Whatever is refused, a listener is revoked
just when it is no longer registered, and then it delivers nothing any more
(`revoked_of_unregistered`). A refusal may leave a handler behind at the document, but only one of
a listener that was revoked.
-/

namespace TreeEdit.Scene

open Document (host)

variable {τ : Type} {refuse : Nat → Option HostError}

/-- A document under watch, with its listeners. -/
abbrev OnWatched (τ : Type) := Scene (Watched (Document ListenerId) NodeId Nat) NodeId Nat τ

/-- The scene after one step of a registry on a document whose watch refuses what `refuse` says, or
after a change from elsewhere that is not about listeners. -/
inductive Tends (refuse : Nat → Option HostError) (c : OnWatched τ) : OnWatched τ → Prop
  | attach (n : NodeId) (eventType : String) (handles : UInt32 × UInt32) :
      Tends refuse c (Step.after (attach ((host id).watched refuse) n eventType handles) c)
  | update (key : NodeKey) (eventType : String) (handles : UInt32 × UInt32) :
      Tends refuse c (Step.after (update key eventType handles) c)
  | detach (n : NodeId) (eventType : String) :
      Tends refuse c (Step.after (detach ((host id).watched refuse) n eventType) c)
  | teardown : Tends refuse c (Step.after (teardown ((host id).watched refuse)) c)
  | install (trampoline : τ) : Tends refuse c { c with listeners := c.listeners.install trampoline }
  | uninstall : Tends refuse c { c with listeners := c.listeners.uninstall }
  /-- The watch may have seen the call or not. -/
  | edit {k : Reply} (call : HostCall NodeId Nat k) (hc : call.Mute)
      (calls : Array (AnyCall NodeId Nat)) :
      Tends refuse c { c with doc := ⟨Step.after ((host id).perform call) c.doc.doc, calls⟩ }

/-- Any number of such steps. -/
def Tended (refuse : Nat → Option HostError) (c c' : OnWatched τ) : Prop :=
  Relation.ReflTransGen (Tends refuse) c c'

variable {c c' c'' : OnWatched τ}

theorem keeps_of_tends (h : c.InStep Watched.doc True) (hc : Tends refuse c c') :
    c.Keeps Watched.doc True c' := by
  have hH := Document.binds_host.watched refuse
  cases hc with
  | attach n t handles =>
    exact ((attach_ends hH h n t handles).mono (fun _ _ h' => h'.1) fun _ _ h' => h'.1).after
  | update key t handles =>
    refine ((update_ends h key t handles).mono (fun _ _ h' => h'.1) fun e c₁ h' => ?_).after
    rw [h'.2.1]
    exact ⟨h, .of_same rfl rfl⟩
  | detach n t =>
    refine ((detach_ends hH h n t).mono (fun _ _ h' => h'.1) fun e c₁ h' => ?_).after
    rcases h' with ⟨-, rfl, -⟩ | ⟨-, hkeeps⟩
    · exact ⟨h, .of_same rfl rfl⟩
    · exact hkeeps
  | teardown =>
    exact ((teardown_ends hH h).mono (fun _ _ h' => h'.1) fun _ _ h' => h'.1).after
  | install trampoline => exact h.of_same rfl rfl
  | uninstall => exact h.of_same rfl rfl
  | edit call hc calls =>
    have hsame := Step.Ends.after
      (P := fun d : Document ListenerId => d.attendance = c.doc.doc.attendance)
      (Document.perform_keeps_handlers id hc c.doc.doc)
    obtain ⟨hhandlers, hbinding⟩ := Prod.mk.inj hsame
    exact ⟨h.of_handlers hhandlers hbinding.ge, .of_same rfl rfl⟩

theorem keeps_of_tended (h : c.InStep Watched.doc True) (hc : Tended refuse c c') :
    c.Keeps Watched.doc True c' := by
  induction hc with
  | refl => exact ⟨h, .of_same rfl rfl⟩
  | tail _ hlast ih => exact ih.trans (keeps_of_tends ih.attended hlast)

/-! ## What a run has come to -/

theorem inStep_of_tended {d : Document ListenerId} {calls : Array (AnyCall NodeId Nat)}
    (hd : ∀ n, d.handlers n = []) (hc : Tended refuse (.ofDoc ⟨d, calls⟩) c) :
    c.InStep Watched.doc True :=
  (keeps_of_tended (c := .ofDoc ⟨d, calls⟩) (.start hd) hc).attended

/-- What becomes of an event that comes to a listener that was taken off. -/
theorem fire_of_retired {r : Registry NodeId Nat τ} {id : ListenerId} {l : Listener}
    (hl : r.listener? id = some l) (hrevoked : l.revoked = true) (event : Event) :
    r.fire id event = .error (.listenerRevoked l.eventType) := by
  rw [Registry.fire, hl]
  exact if_pos hrevoked

/-- A listener that is no longer registered where it was is revoked for good. -/
theorem retired_of_unregistered (h : c.InStep Watched.doc True) (hc : Tended refuse c c')
    {key : NodeKey} {t : String} {id : ListenerId} (hid : c.listeners.find? key t = some id)
    (hgone : c'.listeners.find? key t ≠ some id) :
    ∃ l, c'.listeners.listener? id = some l ∧ l.revoked = true ∧ l.handles = (0, 0) ∧
      ∀ c'', Tended refuse c' c'' →
        c''.listeners.listener? id = some l ∧ c''.listeners.find? key t ≠ some id ∧
        ∀ event, c''.listeners.fire id event = .error (.listenerRevoked t) := by
  have hkeeps := keeps_of_tended h hc
  obtain ⟨l, hl, hrevoked, hhandles⟩ := (hkeeps.continues.inUse hid).resolve_left hgone
  -- the type of the event is still the one that the listener was registered for
  have ht : l.eventType = t := by
    obtain ⟨e, he, rfl⟩ := Registry.entry_of_find? hid
    obtain ⟨-, l₀, hl₀, -, ht₀, -⟩ := h.inUse he
    obtain ⟨l', hl', -, ht'⟩ := hkeeps.continues.made hl₀
    cases hl.symm.trans hl'
    exact ht'.trans ht₀
  refine ⟨l, hl, hrevoked, hhandles, fun c'' hc'' => ?_⟩
  have hkeeps' := keeps_of_tended hkeeps.attended hc''
  have hl'' : c''.listeners.listener? id = some l :=
    (hkeeps'.continues.retired ⟨l, hl, hrevoked, hhandles⟩).trans hl
  refine ⟨hl'', fun hback => ?_, fun event => ?_⟩
  · obtain ⟨e, he, rfl⟩ := Registry.entry_of_find? hback
    exact hkeeps'.attended.listener_ne_of_retired he ⟨l, hl'', hrevoked, hhandles⟩ rfl
  · rw [fire_of_retired hl'' hrevoked, ht]

/-- A listener is revoked just when it is not registered any more, whatever the document refuses. A
registered one has one handler; any other handler belongs to a listener that was revoked. -/
theorem revoked_of_unregistered {d : Document ListenerId} {calls : Array (AnyCall NodeId Nat)}
    (hd : ∀ n, d.handlers n = []) (hc : Tended refuse (.ofDoc ⟨d, calls⟩) c) :
    c.listeners.entries.keys.Nodup ∧
    (∀ key t e, c.listeners.entries.get? (key, t) = some e →
      (∃ l, c.listeners.listener? e.listener = some l ∧ l.node = key ∧ l.eventType = t ∧
        l.revoked = false) ∧
      e.node.key = key ∧
      (c.doc.doc.handlers e.node).filter (·.callback = e.listener)
        = [⟨t, e.binding, e.listener⟩] ∧
      ∀ n, n ≠ e.node → ∀ h ∈ c.doc.doc.handlers n, h.callback ≠ e.listener) ∧
    (∀ c' key t id, Tended refuse c c' → c.listeners.find? key t = some id →
      c'.listeners.find? key t ≠ some id →
      ∃ l, c'.listeners.listener? id = some l ∧ l.revoked = true ∧ l.handles = (0, 0) ∧
        ∀ c'', Tended refuse c' c'' →
          c''.listeners.listener? id = some l ∧ c''.listeners.find? key t ≠ some id ∧
          ∀ event, c''.listeners.fire id event = .error (.listenerRevoked t)) ∧
    ∀ n, ∀ h ∈ c.doc.doc.handlers n,
      c.listeners.entries.get? (n.key, h.eventType) = some ⟨h.callback, n, h.binding⟩ ∨
        ∃ l, c.listeners.listener? h.callback = some l ∧ l.revoked = true ∧
          l.handles = (0, 0) := by
  have h := inStep_of_tended hd hc
  refine ⟨c.listeners.entries.nodup, fun key t e he => ?_, fun c' key t id hc' hid hgone => ?_,
    fun n x hx => ?_⟩
  · obtain ⟨hkey, hl⟩ := h.inUse he
    refine ⟨hl, hkey, h.handlers_of_inUse he, fun n hn x hx hcallback => hn ?_⟩
    exact (h.handler_of_inUse he hx hcallback).1
  · exact retired_of_unregistered h hc' hid hgone
  · exact (h.owned hx).imp_right And.right

/-- A watch that refuses the second call. -/
def refuseSecond (number : Nat) : Option HostError :=
  if number = 2 then some (.stated "busy") else none

/-- A listener attached to a container under that watch. The binding is the first call. -/
def attachedOnce : OnWatched Unit :=
  Step.after (attach ((host id).watched refuseSecond) ⟨0⟩ "click" (1, 2))
    (.ofDoc ⟨(Document.withContainer "main").1, #[]⟩)

/-- One more listener in its place. The watch refuses to undo the binding, so none is attached. -/
def attachedTwice : OnWatched Unit :=
  Step.after (attach ((host id).watched refuseSecond) ⟨0⟩ "click" (3, 4)) attachedOnce

/-- The handler that could not be taken off is still there, and its listener answers nothing. -/
theorem left_behind_revoked :
    attachedOnce.listeners.find? ⟨0⟩ "click" = some ⟨0⟩ ∧
    attachedTwice.listeners.find? ⟨0⟩ "click" = none ∧
    (attachedTwice.doc.doc.handlers ⟨0⟩).map (·.callback) = [⟨0⟩] ∧
    ∃ l, attachedTwice.listeners.listener? ⟨0⟩ = some l ∧ l.revoked = true ∧ l.handles = (0, 0) ∧
      ∀ event, attachedTwice.listeners.fire ⟨0⟩ event = .error (.listenerRevoked "click") := by
  have hbare (n : NodeId) : (Document.withContainer "main").1.handlers (κ := ListenerId) n = [] := by
    match n with
    | ⟨0⟩ => rfl
    | ⟨_ + 1⟩ => rfl
  have honce : Tended refuseSecond
      (.ofDoc ⟨(Document.withContainer "main").1, #[]⟩) attachedOnce :=
    .single (.attach ⟨0⟩ "click" (1, 2))
  have htwice : Tended refuseSecond attachedOnce attachedTwice :=
    .single (.attach ⟨0⟩ "click" (3, 4))
  have hin : attachedOnce.listeners.find? ⟨0⟩ "click" = some ⟨0⟩ := by decide
  have hout : attachedTwice.listeners.find? ⟨0⟩ "click" = none := by decide
  have hgone : attachedTwice.listeners.find? ⟨0⟩ "click" ≠ some ⟨0⟩ := by
    rw [hout]
    exact nofun
  obtain ⟨-, -, hrevoked, -⟩ := revoked_of_unregistered hbare honce
  obtain ⟨l, hl, hl₁, hl₂, hlater⟩ := hrevoked attachedTwice ⟨0⟩ "click" ⟨0⟩ htwice hin hgone
  exact ⟨hin, hout, by decide, l, hl, hl₁, hl₂, (hlater attachedTwice .refl).2.2⟩

end TreeEdit.Scene
