import TreeEdit.Machine.Run
import TreeEdit.Proofs.Document.Effects
import TreeEdit.Proofs.Machine.Steps

/-!
# Moves of a machine on a document

What an instruction does to the document depends on the slots of the stack alone. A `Site` is a
document with slots, and a `Move` is the least that a run does to it: a slot is dropped, the first
child or the next sibling of the node on top is looked up, or a call that the slots prompt is done.
Every instruction, and so every range, is some moves (`exec_goes`, `runAll_goes`). A run that
fails has made moves up to there, and the document may have refused a last call.

Programs can thus do no more to a document than moves can, however they are encoded and whether
they are well formed or not.
-/

namespace TreeEdit

open Document (host)

/-- A document, and the slots that a run works with. -/
structure Site (κ : Type) where
  doc : Document κ
  slots : List (Option NodeId)

variable {κ τ : Type} {wrap : ListenerId → κ} {k : Reply}

/-! ## Moves -/

/-- Slots `st` prompt a call to the document `d`. If it answers `a`, the slots become `next a`. -/
inductive Prompts (d : Document κ) :
    List (Option NodeId) → {k : Reply} → HostCall NodeId Nat k →
      (k.Of NodeId Nat → List (Option NodeId)) → Prop
  | setText (n : NodeId) (text : String) (st : List (Option NodeId)) :
      Prompts d (some n :: st) (.setText n text) fun _ => some n :: st
  | setAttribute (n : NodeId) (name value : String) (st : List (Option NodeId)) :
      Prompts d (some n :: st) (.setAttribute n name value) fun _ => some n :: st
  | removeAttribute (n : NodeId) (name : String) (st : List (Option NodeId)) :
      Prompts d (some n :: st) (.removeAttribute n name) fun _ => some n :: st
  | setProperty (n : NodeId) (property : Property) (st : List (Option NodeId)) :
      Prompts d (some n :: st) (.setProperty n property) fun _ => some n :: st
  | listen (n : NodeId) (eventType : String) (listener : ListenerId) (st : List (Option NodeId)) :
      Prompts d (some n :: st) (.listen n eventType listener) fun _ => some n :: st
  | unlisten (n : NodeId) (eventType : String) (binding : Nat) (st : List (Option NodeId)) :
      Prompts d (some n :: st) (.unlisten n eventType binding) fun _ => some n :: st
  /-- The next sibling is the one that the node has before it is removed. -/
  | remove (n : NodeId) (st : List (Option NodeId)) :
      Prompts d (some n :: st) (.remove n) fun _ => d.nextSibling? n :: st
  | replace (old new : NodeId) (st : List (Option NodeId)) :
      Prompts d (some new :: some old :: st) (.replace old new) fun _ => some new :: st
  | append (p c : NodeId) (st : List (Option NodeId)) :
      Prompts d (some c :: some p :: st) (.append p c) fun _ => some p :: st
  | createText (text : String) (st : List (Option NodeId)) :
      Prompts d st (.createText text) fun id => some id :: st
  | createElement (tag : String) (st : List (Option NodeId)) :
      Prompts d st (.createElement tag) fun id => some id :: st

/-- A call names nodes of the slots only. -/
theorem Prompts.names {d : Document κ} {st : List (Option NodeId)} {c : HostCall NodeId Nat k}
    {next : k.Of NodeId Nat → List (Option NodeId)} (hp : Prompts d st c next) {id : NodeId}
    (hid : c.Names id) : some id ∈ st := by
  cases hp with
  | replace old new st =>
    rcases hid with rfl | rfl
    · exact List.mem_cons_of_mem _ List.mem_cons_self
    · exact List.mem_cons_self
  | append p c st =>
    rcases hid with rfl | rfl
    · exact List.mem_cons_of_mem _ List.mem_cons_self
    · exact List.mem_cons_self
  | createText | createElement => cases hid
  | _ =>
    cases hid
    exact List.mem_cons_self

/-- The least that a run does. -/
inductive Move (wrap : ListenerId → κ) : Site κ → Site κ → Prop
  | pop (d : Document κ) (slot : Option NodeId) (st : List (Option NodeId)) :
      Move wrap ⟨d, slot :: st⟩ ⟨d, st⟩
  | firstChild (d : Document κ) (n : NodeId) (st : List (Option NodeId)) :
      Move wrap ⟨d, some n :: st⟩ ⟨d, d.firstChild? n :: some n :: st⟩
  | nextSibling (d : Document κ) (n : NodeId) (st : List (Option NodeId)) :
      Move wrap ⟨d, some n :: st⟩ ⟨d, d.nextSibling? n :: st⟩
  | call {d d' : Document κ} {st : List (Option NodeId)} {k : Reply} {c : HostCall NodeId Nat k}
      {next : k.Of NodeId Nat → List (Option NodeId)} {a : k.Of NodeId Nat}
      (hp : Prompts d st c next) (hc : (host wrap).perform c d = .ok a d') :
      Move wrap ⟨d, st⟩ ⟨d', next a⟩

/-- Any number of moves. -/
def Moves (wrap : ListenerId → κ) (s s' : Site κ) : Prop :=
  Relation.ReflTransGen (Move wrap) s s'

theorem Moves.step {s s' s'' : Site κ} (h : Moves wrap s s') (h' : Move wrap s' s'') :
    Moves wrap s s'' :=
  Relation.ReflTransGen.tail h h'

/-! ## Registries that fit a document -/

/-- Every listener is entered under the identity of its node. -/
def Registry.Keyed (r : Registry NodeId Nat τ) : Prop :=
  ∀ key eventType entry, r.entries.get? (key, eventType) = some entry → entry.node.key = key

namespace Registry.Keyed

variable {r : Registry NodeId Nat τ}

theorem empty : (Registry.empty : Registry NodeId Nat τ).Keyed := by
  intro key eventType entry h
  cases h

theorem of_entries {r' : Registry NodeId Nat τ} (h : r.Keyed) (he : r'.entries = r.entries) :
    r'.Keyed := by
  intro key eventType entry hentry
  rw [he] at hentry
  exact h key eventType entry hentry

theorem release (h : r.Keyed) (key : NodeKey) (eventType : String)
    (entry : Registry.Entry NodeId Nat) : (r.release key eventType entry).Keyed := by
  intro key' eventType' entry' hentry
  have herase : (r.entries.erase (key, eventType)).get? (key', eventType') = some entry' := hentry
  rw [OrderedMap.get?_erase] at herase
  split at herase
  · cases herase
  · exact h key' eventType' entry' herase

theorem enter (h : r.Keyed) (entry : Registry.Entry NodeId Nat) {key : NodeKey}
    (hkey : entry.node.key = key) (eventType : String) : (r.enter key eventType entry).Keyed := by
  intro key' eventType' entry' hentry
  have hput : (r.entries.put (key, eventType) entry).get? (key', eventType') = some entry' := hentry
  rw [OrderedMap.get?_put] at hput
  split at hput
  · rename_i he
    cases hput
    rw [hkey, (Prod.mk.inj he).1]
  · exact h key' eventType' entry' hput

end Registry.Keyed

theorem NodeId.key_injective {n n' : NodeId} (h : n.key = n'.key) : n = n' :=
  NodeId.ext (NodeKey.mk.inj h)

/-! ## Where a run stands -/

/-- A run that began at `s` has come to a scene, with `slots` to work with. -/
structure Stands (wrap : ListenerId → κ) (s : Site κ) (c : Scene (Document κ) NodeId Nat τ)
    (slots : List (Option NodeId)) : Prop where
  moves : Moves wrap s ⟨c.doc, slots⟩
  keyed : c.listeners.Keyed

/-- A run that began at `s` has failed at a scene: for a reason of its own, or because the document
refused the last call. -/
structure Halts (wrap : ListenerId → κ) (s : Site κ) (e : Error)
    (c : Scene (Document κ) NodeId Nat τ) : Prop where
  keyed : c.listeners.Keyed
  last : ∃ s', Moves wrap s s' ∧
    ((e.Own ∧ c.doc = s'.doc) ∨
      ∃ (r : HostError) (k : Reply) (call : HostCall NodeId Nat k)
        (next : k.Of NodeId Nat → List (Option NodeId)),
        e = .host r ∧ Prompts s'.doc s'.slots call next ∧
          (host wrap).perform call s'.doc = .error r c.doc)

variable {s : Site κ} {st : List (Option NodeId)}

theorem Stands.halts {c : Scene (Document κ) NodeId Nat τ} (h : Stands wrap s c st) {e : Error}
    (he : e.Own) : Halts wrap s e c :=
  ⟨h.keyed, _, h.moves, .inl ⟨he, rfl⟩⟩

theorem Stands.move {c : Scene (Document κ) NodeId Nat τ} (h : Stands wrap s c st)
    {st' : List (Option NodeId)} (hm : Move wrap ⟨c.doc, st⟩ ⟨c.doc, st'⟩) :
    Stands wrap s c st' :=
  ⟨h.moves.step hm, h.keyed⟩

/-- A call that the slots prompt. -/
theorem Stands.perform {c : Scene (Document κ) NodeId Nat τ} (h : Stands wrap s c st)
    {call : HostCall NodeId Nat k} {next : k.Of NodeId Nat → List (Option NodeId)}
    (hp : Prompts c.doc st call next) :
    Step.Ends ((host wrap).perform call) c.doc
      (fun a d => Stands wrap s { c with doc := d } (next a))
      fun e d => Halts wrap s (.host e) { c with doc := d } := by
  rw [Step.ends_iff]
  constructor
  · intro a d ha
    exact ⟨h.moves.step (.call hp ha), h.keyed⟩
  · intro e d he
    exact ⟨h.keyed, _, h.moves, .inr ⟨e, k, call, next, rfl, hp, he⟩⟩

/-! ## Listeners -/

namespace Scene

variable {c : Scene (Document κ) NodeId Nat τ} {n : NodeId}

/-- The listener of the node on top is taken off. -/
theorem release_stands (h : Stands wrap s c (some n :: st)) (eventType : String)
    {entry : Registry.Entry NodeId Nat} (he : entry.node = n) :
    Step.Ends (release (host wrap) n.key eventType entry) c
      (fun _ c' => Stands wrap s c' (some n :: st)) fun e c' => Halts wrap s e c' := by
  rw [release, Step.ends_bind, ends_modifyListeners, ends_call, he]
  -- the registry gives the listener up before the document is asked
  have h' : Stands wrap s { c with listeners := c.listeners.release n.key eventType entry }
      (some n :: st) := ⟨h.moves, h.keyed.release _ _ _⟩
  exact h'.perform (.unlisten n eventType entry.binding st)

theorem attach_stands (h : Stands wrap s c (some n :: st)) (eventType : String)
    (handles : UInt32 × UInt32) :
    Step.Ends (attach (host wrap) n eventType handles) c
      (fun _ c' => Stands wrap s c' (some n :: st)) fun e c' => Halts wrap s e c' := by
  -- once no listener is in the way, a new one is made, bound and entered
  have bind (c : Scene (Document κ) NodeId Nat τ) (h : Stands wrap s c (some n :: st)) :
      Step.Ends (enlist (host wrap) n.key n eventType handles c.listeners) c
        (fun _ c' => Stands wrap s c' (some n :: st)) fun e c' => Halts wrap s e c' := by
    rw [enlist, Step.ends_bind, ends_modifyListeners, Step.ends_bind, ends_call]
    have hmade : Stands wrap s
        { c with listeners := (c.listeners.make (.fresh eventType n.key handles)).2 }
        (some n :: st) := ⟨h.moves, h.keyed.of_entries rfl⟩
    refine (hmade.perform (.listen n eventType _ st)).mono (fun binding d hd => ?_)
      fun e d he => he
    rw [ends_modifyListeners]
    exact ⟨hd.moves, hd.keyed.enter ⟨_, n, binding⟩ rfl eventType⟩
  rw [attach, Step.ends_bind, Step.ends_get, Step.ends_bind, Step.ends_get]
  split
  · rename_i entry hentry
    rw [Step.ends_bind, ends_note, Step.ends_bind]
    have hnoted : Stands wrap s
        { c with journal := c.journal.push (.replaced n.key eventType) } (some n :: st) :=
      ⟨h.moves, h.keyed⟩
    have hrelease := release_stands hnoted eventType
      (NodeId.key_injective (h.keyed _ _ _ hentry))
    exact hrelease.mono (fun _ c' hc' => bind c' hc') fun e c' he => he
  · exact bind c h

theorem detach_stands (h : Stands wrap s c (some n :: st)) (eventType : String) :
    Step.Ends (detach (host wrap) n eventType) c
      (fun _ c' => Stands wrap s c' (some n :: st)) fun e c' => Halts wrap s e c' := by
  have hmissing : (Error.missingListener eventType).Own := nofun
  rw [detach, Step.ends_bind, Step.ends_get, Step.ends_bind, Step.ends_get]
  split
  · rename_i entry hentry
    exact release_stands h eventType (NodeId.key_injective (h.keyed _ _ _ hentry))
  · exact h.halts hmissing

theorem update_stands (h : Stands wrap s c st) (key : NodeKey) (eventType : String)
    (handles : UInt32 × UInt32) :
    Step.Ends (update key eventType handles) c
      (fun _ c' => Stands wrap s c' st) fun e c' => Halts wrap s e c' := by
  rw [update, Step.ends_bind, Step.ends_get, Step.ends_bind, Step.ends_ofExcept]
  rw [Registry.update]
  split
  · refine ⟨fun r hr => ?_, nofun⟩
    cases hr
    exact ⟨h.moves, h.keyed.of_entries rfl⟩
  · refine ⟨nofun, fun e he => ?_⟩
    cases he
    exact h.halts nofun

end Scene

end TreeEdit
