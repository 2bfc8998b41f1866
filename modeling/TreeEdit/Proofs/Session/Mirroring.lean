import TreeEdit.Proofs.Document.Mirroring
import TreeEdit.Proofs.Listener.Leading
import TreeEdit.Proofs.Session.History
import TreeEdit.Proofs.Session.Refusal

/-!
# Live properties mirror attributes throughout a session

Setting or removing an attribute is two calls, and between them the property is behind. But the
first of them is refused only where the second would be, so that a run never ends there. So if the
document mirrors when a session starts on it, it does so between any two requests, whether the
requests succeed or fail (`mirrors_of_history`).
-/

namespace TreeEdit

open Step (Leads)
open Document (host)

variable {κ τ : Type} {wrap : ListenerId → κ}

/-- A call of others that touches no attributes and no live properties. -/
def Document.TurnsPlainly (d d' : Document κ) : Prop :=
  ∃ (wrap : ListenerId → κ) (k : Reply) (c : HostCall NodeId Nat k),
    c.Plain ∧ Step.after ((host wrap).perform c) d = d'

namespace Machine

open Document (changeElement)

variable {node : NodeId}

/-- A call that changes the attributes of an element, together with the one that writes the
property which the change asks for. -/
theorem callFollow_mirrors {c : HostCall NodeId Nat .done}
    {g : OrderedMap String String → OrderedMap String String} {property : Option Property}
    (hc : (host wrap).perform c = changeElement node fun attributes properties =>
      (g attributes, properties))
    (hg : ∀ attributes, Properties.reflecting (g attributes).get?
      = (Properties.reflecting attributes.get?).writeSome property) :
    Leads (fun m m' : Machine (Document κ) NodeId Nat τ => m.doc.Mirrors → m'.doc.Mirrors)
      (do call (host wrap) c; follow (host wrap) node property) := by
  intro m
  rw [Step.ends_bind, ends_call, hc]
  cases htag : m.doc.tag? node with
  | none =>
    obtain ⟨e, he⟩ := Document.changeElement_of_other htag fun attributes properties =>
      (g attributes, properties)
    rw [Step.Ends, he]
    exact id
  | some tag =>
    obtain ⟨n, tag, attributes, properties, hn, hcontent⟩ :=
      Document.tag?_isSome_iff.mp (Option.isSome_of_eq_some htag)
    obtain ⟨d₁, h₁, hd₁⟩ := Document.changeElement_of_element hn hcontent
      fun attributes properties => (g attributes, properties)
    have hmirrored (hm : m.doc.Mirrors) :
        (Content.element tag (g attributes) (properties.writeSome property)).Mirrored := by
      have hold := Document.mirrors_iff.mp hm node n hn
      rw [hcontent] at hold
      cases hold
      rw [← hg]
      exact .element tag _
    rw [Step.Ends, h₁]
    cases property with
    | none => exact fun hm => hd₁.mirrors (hmirrored hm) hm
    | some property =>
      -- the node is still an element, so that the second call is not refused
      have hn₁ : d₁.node? node = some { n with content := .element tag (g attributes) properties } :=
        by rw [hd₁, if_pos rfl, hn, Option.map_some]
      obtain ⟨d₂, h₂, hd₂⟩ := Document.changeElement_of_element hn₁ rfl
        fun attributes properties => (attributes, properties.write property)
      show Step.Ends (call (host wrap) (.setProperty node property)) _ _ _
      rw [ends_call]
      show Step.Ends (Document.setProperty node property) d₁ _ _
      rw [Step.Ends, Document.setProperty, h₂]
      exact fun hm => (hd₁.trans hd₂).mirrors (hmirrored hm) hm

theorem dress_mirrors (node : NodeId) (name value : String) :
    Leads (fun m m' : Machine (Document κ) NodeId Nat τ => m.doc.Mirrors → m'.doc.Mirrors)
      (dress (host wrap) node name value) :=
  callFollow_mirrors rfl fun attributes => Properties.reflecting_put attributes name value

theorem undress_mirrors (node : NodeId) (name : String) :
    Leads (fun m m' : Machine (Document κ) NodeId Nat τ => m.doc.Mirrors → m'.doc.Mirrors)
      (undress (host wrap) node name) :=
  callFollow_mirrors rfl fun attributes => Properties.reflecting_erase attributes name

/-- Every part of an instruction leaves properties as attributes ask for. -/
theorem deeds_mirrors :
    Deeds (τ := τ) (host wrap) fun m m' => m.doc.Mirrors → m'.doc.Mirrors := by
  have hchores : Scene.Chores (τ := τ) (host wrap) fun c c' => c.doc.Mirrors → c'.doc.Mirrors :=
    Scene.chores_of_doc Document.mirrors_strokes.chains fun _ => Document.plain_mirrors wrap
  let S (c c' : Scene (Document κ) NodeId Nat τ) : Prop := c.doc.Mirrors → c'.doc.Mirrors
  exact .ofScene (S := S) hchores.chains
    (fun _ hc => Scene.leads_call_of_doc (Document.plain_mirrors wrap hc.plain)) dress_mirrors
    undress_mirrors hchores.attach hchores.update hchores.detach


end Machine

namespace Session

variable {s s' : Session (Document κ) NodeId Nat τ}

theorem duties_mirrors :
    Duties (τ := τ) (host wrap) fun c c' => c.doc.Mirrors → c'.doc.Mirrors where
  chains := ⟨fun _ => id, fun h h' => h' ∘ h⟩
  deeds := Machine.deeds_mirrors
  note _ _ := id
  install _ _ := id
  teardown := (Scene.chores_of_doc Document.mirrors_strokes.chains
    fun _ => Document.plain_mirrors wrap).teardown

/-- The live properties of every node are what its attributes ask for, at any time between two
requests, if they were so in the beginning. -/
theorem mirrors_of_history {log : Log τ} (hs : s.doc.Mirrors)
    (h : History (host wrap) Document.TurnsPlainly s log s') : s'.doc.Mirrors := by
  refine Duties.history (H := host wrap) duties_mirrors (fun c d hd => ?_) h hs
  obtain ⟨wrap', k, call, hcall, rfl⟩ := hd
  exact Step.leads_iff.mp (Document.plain_mirrors wrap' hcall) c.doc

theorem apply_onBox : ∃ s', apply (host id) checkBox onBox = .ok () s' ∧
    s'.doc.attribute? ⟨1⟩ "checked" = some "checked" := by
  let m₀ := onBox.toMachine.withSlots [some ⟨1⟩]
  obtain ⟨m, hm, hdepth, hset⟩ : ∃ m,
      Machine.runFrom (host id) checkBox false ⟨0, checkBox⟩ 0 m₀ = .ok 1 m ∧
      m.stack.depth = 1 ∧ m.doc.attribute? ⟨1⟩ "checked" = some "checked" := by
    refine ⟨?_, ?_, ?_, ?_⟩
    rotate_left
    · show Machine.runFrom (host id) checkBox false
        ⟨0, (Instr.setAttribute 0 0).encode ++ []⟩ 0 m₀ = _
      rw [Machine.runFrom_encode, Machine.runFrom_nil]
      rfl
    · rfl
    · rfl
  have hall : Machine.runAll (host id) checkBox false [⟨0, 12⟩] m₀ = .ok 1 m := Step.bind_ok hm
  have hrun : run (host id) checkBox onBox = .ok 1 { onBox with toMachine := m } :=
    run_of_runAll rfl hall fun h => absurd h.2 (by omega)
  refine ⟨{ onBox with toMachine := m }.closed (.applied 1 1), ?_, hset⟩
  rw [apply_of_active rfl (List.cons_ne_nil _ _), hrun]
  rfl

/-- A control that nobody has checked is checked by a program, and the live property follows. -/
theorem mirrors_onBox : onBox.doc.Mirrors ∧
    ∃ s' log, History (host id) Document.TurnsPlainly onBox log s' ∧
      s'.doc.attribute? ⟨1⟩ "checked" = some "checked" ∧ (s'.doc.properties ⟨1⟩).checked = true := by
  have hbox : onBox.doc.Mirrors
    | ⟨0⟩ => rfl
    | ⟨1⟩ => rfl
    | ⟨_ + 2⟩ => rfl
  obtain ⟨s', hs', hset⟩ := apply_onBox
  have hserve : serve (host id) (.apply checkBox) onBox = .ok none s' := Step.bind_ok hs'
  have hlast : History (host id) Document.TurnsPlainly onBox _ s' := History.start.serve_ok hserve
  have hmirrors : s'.doc.Mirrors := mirrors_of_history hbox hlast
  refine ⟨hbox, s', _, hlast, hset, ?_⟩
  rw [hmirrors ⟨1⟩, Properties.reflecting, hset]
  rfl

end Session

end TreeEdit
