import TreeEdit.Host.Watched
import TreeEdit.Proofs.Document.Handlers

/-!
# Handlers on the nodes of a host

A host has handlers on its nodes, those that a session had installed and those of others. They are
seen through a `HandlerView`, so that nothing has to be known about the host but that it is
`Faithful`: a handler of the session is there because the host was told to listen, and one that the
host was told to take off is gone. A document is faithful (`Document.faithful_host`).

A host that fails for reasons of its own is a faithful one under a watch. Whatever the watch
refuses, a handler that was to be taken off is gone, or its removal is among the calls that were
refused (`HandlerView.Faithful.watched_unlisten`).
-/

namespace TreeEdit

variable {δ ν β η κ : Type}

/-! ## Views -/

/-- How the handlers on the nodes of a host are seen. -/
structure HandlerView (δ ν β η : Type) where
  /-- The handlers of a node. -/
  on : δ → ν → List η
  /-- The binding that takes a handler off. -/
  binding : η → β
  /-- The listener that a handler was installed for; none if it is not one of the session. -/
  owner : η → Option ListenerId

namespace HandlerView

/-- The node has a handler of a listener. -/
def Holds (V : HandlerView δ ν β η) (d : δ) (n : ν) (x : η) (id : ListenerId) : Prop :=
  x ∈ V.on d n ∧ V.owner x = some id

/-- No handler of the session has come to any node. Some may be gone. -/
def NoneCame (V : HandlerView δ ν β η) (d d' : δ) : Prop :=
  ∀ n x id, V.Holds d' n x id → V.Holds d n x id

/-- The host installs a handler of the session only where it answers a binding for it, and has none
left under a binding that it was told to undo. -/
structure Faithful (V : HandlerView δ ν β η) (H : Host δ ν β) : Prop where
  mute : ∀ {k : Reply} (c : HostCall ν β k), c.Mute → Step.Leads V.NoneCame (H.perform c)
  listen : ∀ d n t id, Step.Ends (H.perform (.listen n t id)) d
    (fun binding d' => ∀ n' x id', V.Holds d' n' x id' →
      V.Holds d n' x id' ∨ n' = n ∧ V.binding x = binding ∧ id' = id)
    fun _ d' => V.NoneCame d d'
  unlisten : ∀ n t binding,
    Step.Leads (fun d d' => V.NoneCame d d' ∧ ∀ x id, V.Holds d' n x id → V.binding x ≠ binding)
      (H.perform (.unlisten n t binding))

variable {V : HandlerView δ ν β η}

theorem noneCame_refl (d : δ) : V.NoneCame d d := fun _ _ _ h => h

end HandlerView

/-! ## Documents -/

namespace Document

variable {wrap : ListenerId → κ} {owner : κ → Option ListenerId} {d d' : Document κ}

/-- The handlers of a document, of which `owner` knows those of the session by their callbacks. -/
def view (owner : κ → Option ListenerId) : HandlerView (Document κ) NodeId Nat (Handler κ) :=
  ⟨handlers, Handler.binding, fun x => owner x.callback⟩

theorem noneCame_of_handlers (h : d'.handlers = d.handlers) : (view owner).NoneCame d d' := by
  rintro n x id ⟨hx, hid⟩
  refine ⟨?_, hid⟩
  show x ∈ d.handlers n
  rwa [← h]

/-- A document refuses to listen or to undo a binding only at nodes that are not there, and these
have no handlers. -/
theorem faithful_host (howner : ∀ id, owner (wrap id) = some id) :
    (view owner).Faithful (host wrap) where
  mute c hc d := by
    have hkeeps := perform_keeps_handlers wrap hc d
    exact hkeeps.mono (fun _ _ h => noneCame_of_handlers (Prod.mk.inj h).1)
      fun _ _ h => noneCame_of_handlers (Prod.mk.inj h).1
  listen d n t id := by
    refine (listen_ends n t (wrap id)).mono (fun binding d' h => ?_)
      fun _ d' h => noneCame_of_handlers h.1
    obtain ⟨-, rfl, -, hhandlers⟩ := h
    rintro n' x id' ⟨hx, hid⟩
    replace hx : x ∈ d'.handlers n' := hx
    rw [hhandlers, Function.update_apply] at hx
    split at hx
    · rename_i hn
      rcases List.mem_append.mp hx with hold | hnew
      · exact .inl ⟨hn ▸ hold, hid⟩
      · obtain rfl := List.mem_singleton.mp hnew
        exact .inr ⟨hn, rfl, Option.some.inj (hid.symm.trans (howner id))⟩
    · exact .inl ⟨hx, hid⟩
  unlisten n t binding d := by
    refine (unlisten_ends n binding).mono (fun _ d' h => ?_) fun _ d' h => ?_
    · obtain ⟨-, -, hhandlers⟩ := h
      have hleft (n' : NodeId) (x : Handler κ) (hx : x ∈ d'.handlers n') :
          x ∈ d.handlers n' ∧ (n' = n → x.binding ≠ binding) := by
        rw [hhandlers, Function.update_apply] at hx
        split at hx
        · rename_i hn
          obtain ⟨hold, hb⟩ := List.mem_filter.mp hx
          exact ⟨hn ▸ hold, fun _ => of_decide_eq_true hb⟩
        · rename_i hn
          exact ⟨hx, fun h => absurd h hn⟩
      exact ⟨fun n' x id h' => ⟨(hleft n' x h'.1).1, h'.2⟩, fun x id h' => (hleft n x h'.1).2 rfl⟩
    · obtain ⟨hhandlers, -, hun⟩ := h
      refine ⟨noneCame_of_handlers hhandlers, fun x id h' => ?_⟩
      have hx : x ∈ d'.handlers n := h'.1
      rw [hhandlers, handlers_of_unknown hun] at hx
      cases hx

theorem handlerCount_eq_length (d : Document κ) (n : NodeId) :
    d.handlerCount n = (d.handlers n).length := by
  rw [handlerCount, handlers]
  cases d.node? n <;> rfl

end Document

/-! ## Calls under watch -/

namespace Watched

variable {w w' w'' : Watched δ ν β} {refuse : Nat → Option HostError} {n : ν} {binding : β}

/-- The calls of the one are calls of the other, under the same numbers. -/
def GoesOn (w w' : Watched δ ν β) : Prop :=
  ∀ (i : Nat) (c : AnyCall ν β), w.calls[i]? = some c → w'.calls[i]? = some c

/-- Among the calls is one that was to undo a binding and that the watch refused. -/
def Refused (refuse : Nat → Option HostError) (w : Watched δ ν β) (n : ν) (binding : β) : Prop :=
  ∃ i t, w.calls[i]? = some ⟨.done, .unlisten n t binding⟩ ∧ refuse (i + 1) ≠ none

/-- The watch refuses none of the calls that are made between the two. -/
def LetThrough (refuse : Nat → Option HostError) (w w' : Watched δ ν β) : Prop :=
  ∀ i, w.calls.size ≤ i → i < w'.calls.size → refuse (i + 1) = none

theorem goesOn_refl (w : Watched δ ν β) : w.GoesOn w := fun _ _ h => h

theorem GoesOn.trans (h : w.GoesOn w') (h' : w'.GoesOn w'') : w.GoesOn w'' :=
  fun i c hc => h' i c (h i c hc)

theorem goesOn_push (w : Watched δ ν β) (d : δ) (c : AnyCall ν β) :
    w.GoesOn ⟨d, w.calls.push c⟩ := by
  intro i c' hc
  obtain ⟨hi, rfl⟩ := Array.getElem?_eq_some_iff.mp hc
  rw [Array.getElem?_push, if_neg (Nat.ne_of_lt hi)]
  exact hc

theorem Refused.mono (h : w.Refused refuse n binding) (hw : w.GoesOn w') :
    w'.Refused refuse n binding := by
  obtain ⟨i, t, hi, hrefuse⟩ := h
  exact ⟨i, t, hw i _ hi, hrefuse⟩

/-- If all calls have been let through since, a refused one is an earlier one. -/
theorem Refused.of_letThrough (h : w'.Refused refuse n binding) (hw : w.GoesOn w')
    (hlet : LetThrough refuse w w') : w.Refused refuse n binding := by
  obtain ⟨i, t, hi, hrefuse⟩ := h
  have hlt : i < w.calls.size := by
    by_contra hge
    exact hrefuse (hlet i (Nat.le_of_not_lt hge) (Array.getElem?_eq_some_iff.mp hi).1)
  have hcall := Array.getElem?_eq_getElem hlt
  exact ⟨i, t, hcall.trans ((hw i _ hcall).symm.trans hi), hrefuse⟩

end Watched

/-- A call to a watched host is listed, and refused or made. -/
theorem Host.ends_listed {H : Host δ ν β} {refuse : Nat → Option HostError} {w : Watched δ ν β}
    {k : Reply} {c : HostCall ν β k} {Q : k.Of ν β → Watched δ ν β → Prop}
    {E : HostError → Watched δ ν β → Prop}
    (hE : ∀ e, refuse (w.calls.size + 1) = some e → E e ⟨w.doc, w.calls.push ⟨k, c⟩⟩)
    (h : Step.Ends (H.perform c) w.doc (fun a d => Q a ⟨d, w.calls.push ⟨k, c⟩⟩)
      fun e d => E e ⟨d, w.calls.push ⟨k, c⟩⟩) :
    Step.Ends ((H.watched refuse).perform c) w Q E := by
  unfold Step.Ends Host.watched
  dsimp only
  rw [Array.size_push]
  cases hrefuse : refuse (w.calls.size + 1) with
  | some e => exact hE e hrefuse
  | none =>
    unfold Step.Ends at h
    cases hc : H.perform c w.doc with
    | ok a d =>
      rw [hc] at h
      exact h
    | error e d =>
      rw [hc] at h
      exact h

namespace HandlerView.Faithful

variable {V : HandlerView δ ν β η} {H : Host δ ν β}

theorem watched_mute (hV : V.Faithful H) (refuse : Nat → Option HostError) {k : Reply}
    (c : HostCall ν β k) (hc : c.Mute) :
    Step.Leads (fun w w' => w.GoesOn w' ∧ V.NoneCame w.doc w'.doc)
      ((H.watched refuse).perform c) := by
  intro w
  refine Host.ends_listed (fun _ _ => ⟨w.goesOn_push _ _, noneCame_refl _⟩) ?_
  exact (hV.mute c hc w.doc).mono (fun _ d h => ⟨w.goesOn_push _ _, h⟩)
    fun _ d h => ⟨w.goesOn_push _ _, h⟩

theorem watched_listen (hV : V.Faithful H) (refuse : Nat → Option HostError) (w : Watched δ ν β)
    (n : ν) (t : String) (id : ListenerId) :
    Step.Ends ((H.watched refuse).perform (.listen n t id)) w
      (fun binding w' => w.GoesOn w' ∧ ∀ n' x id', V.Holds w'.doc n' x id' →
        V.Holds w.doc n' x id' ∨ n' = n ∧ V.binding x = binding ∧ id' = id)
      fun _ w' => w.GoesOn w' ∧ V.NoneCame w.doc w'.doc := by
  refine Host.ends_listed (fun _ _ => ⟨w.goesOn_push _ _, noneCame_refl _⟩) ?_
  exact (hV.listen w.doc n t id).mono (fun _ d h => ⟨w.goesOn_push _ _, h⟩)
    fun _ d h => ⟨w.goesOn_push _ _, h⟩

/-- What was to be taken off is gone, or that was refused. -/
theorem watched_unlisten (hV : V.Faithful H) (refuse : Nat → Option HostError) (n : ν) (t : String)
    (binding : β) :
    Step.Leads (fun w w' => w.GoesOn w' ∧ V.NoneCame w.doc w'.doc ∧
        ∀ x id, V.Holds w'.doc n x id → V.binding x = binding → w'.Refused refuse n binding)
      ((H.watched refuse).perform (.unlisten n t binding)) := by
  intro w
  refine Host.ends_listed (fun e he => ?_) ?_
  · refine ⟨w.goesOn_push _ _, noneCame_refl _, fun x id _ _ => ⟨w.calls.size, t, ?_, ?_⟩⟩
    · rw [Array.getElem?_push, if_pos rfl]
    · rw [he]
      exact nofun
  · exact (hV.unlisten n t binding w.doc).mono
      (fun _ d h => ⟨w.goesOn_push _ _, h.1, fun x id hx hb => absurd hb (h.2 x id hx)⟩)
      fun _ d h => ⟨w.goesOn_push _ _, h.1, fun x id hx hb => absurd hb (h.2 x id hx)⟩

end HandlerView.Faithful

end TreeEdit
