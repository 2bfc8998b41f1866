import TreeEdit.Proofs.Document.Effects
import TreeEdit.Proofs.Document.Strokes

/-!
# Live properties mirror attributes

A document mirrors if the live properties of every node are what its attributes ask for. Calls that
touch neither leave it so (`plain_mirrors`). Writing an attribute does not; but the property that
follows it is then the only one that is behind (`reflecting_put`, `reflecting_erase`), and what an
element contains can be changed again once it could be changed (`changeElement_of_element`).
-/

namespace TreeEdit

open Step (Leads)

/-- The live properties that attributes ask for. -/
def Properties.reflecting (attribute? : String → Option String) : Properties where
  value := attribute? "value"
  checked := (attribute? "checked").isSome
  selected := (attribute? "selected").isSome

/-- The state after a property is written, if there is one to write. -/
def Properties.writeSome (p : Properties) (property : Option Property) : Properties :=
  property.elim p p.write

/-- The property that follows a setting is the one that the attribute asks for. -/
theorem Properties.reflecting_put (attributes : OrderedMap String String) (name value : String) :
    reflecting (attributes.put name value).get?
      = (reflecting attributes.get?).writeSome (Property.ofSetting name value) := by
  unfold Property.ofSetting
  split <;> simp_all [reflecting, writeSome, write, OrderedMap.get?_put]

theorem Properties.reflecting_erase (attributes : OrderedMap String String) (name : String) :
    reflecting (attributes.erase name).get?
      = (reflecting attributes.get?).writeSome (Property.ofRemoval name) := by
  unfold Property.ofRemoval
  split <;> simp_all [reflecting, writeSome, write, OrderedMap.get?_erase]

/-- The live properties of an element are what its attributes ask for. -/
inductive Content.Mirrored : Content → Prop
  | element (tag : String) (attributes : OrderedMap String String) :
      Mirrored (.element tag attributes (.reflecting attributes.get?))
  | text (text : String) : Mirrored (.text text)

theorem Content.Bare.mirrored {content : Content} (h : content.Bare) : content.Mirrored := by
  cases h with
  | element tag => exact .element tag .empty
  | text text => exact .text text

namespace Document

variable {κ : Type} {d : Document κ}

/-- The live properties of every node are what its attributes ask for. -/
def Mirrors (d : Document κ) : Prop :=
  ∀ id, d.properties id = .reflecting (d.attribute? id)

theorem mirrors_iff :
    d.Mirrors ↔ ∀ id n, d.node? id = some n → n.content.Mirrored := by
  refine forall_congr' fun id => ?_
  cases hn : d.node? id with
  | none =>
    have hid : d.properties id = .reflecting (d.attribute? id) := by
      unfold properties attribute?
      rw [hn]
      rfl
    exact ⟨nofun, fun _ => hid⟩
  | some n =>
    have hid : d.properties id = .reflecting (d.attribute? id) ↔ n.content.Mirrored := by
      unfold properties attribute?
      rw [hn, Option.map_some]
      cases n.content with
      | text t => exact ⟨fun _ => .text t, fun _ => rfl⟩
      | element tag attributes properties =>
        constructor
        · rintro (rfl : properties = .reflecting attributes.get?)
          exact .element tag attributes
        · rintro ⟨⟩
          rfl
    rw [hid]
    exact ⟨fun h m hm => Option.some.inj hm ▸ h, fun h => h n rfl⟩

/-! ## Calls that touch neither -/

theorem change_mirrors (id : NodeId) {f : Node κ → Node κ}
    (hf : ∀ n, n.content.Mirrored → (f n).content.Mirrored) :
    Leads (fun d d' : Document κ => d.Mirrors → d'.Mirrors) (change id f) := by
  refine fun d => Step.ends_iff.mpr ⟨fun _ d' hok hd => ?_, fun e d' herr hd => ?_⟩
  · rw [mirrors_iff] at hd ⊢
    intro id' n hn
    rw [node?_of_change hok] at hn
    split at hn
    · obtain ⟨m, hm, rfl⟩ := Option.map_eq_some_iff.mp hn
      exact hf m (hd id' m hm)
    · exact hd id' n hn
  · by_cases hid : d.Known id
    · cases (change_of_known hid f).symm.trans herr
    · cases (change_of_unknown hid f).symm.trans herr
      exact hd

theorem mirrors_strokes : Strokes fun d d' : Document κ => d.Mirrors → d'.Mirrors where
  chains := ⟨fun _ => id, fun h h' => h' ∘ h⟩
  relink id f hf := change_mirrors id fun n hn => (hf n).1.symm ▸ hn
  reword id text := change_mirrors id fun _ _ => .text text
  create content hbare := by
    refine fun d => Step.ends_iff.mpr ⟨fun new d' hok hd => ?_, fun e d' herr => by cases herr⟩
    rw [mirrors_iff] at hd ⊢
    intro id n hn
    rw [node?_of_allocate hok] at hn
    split at hn
    · cases hn
      exact hbare.mirrored
    · exact hd id n hn

theorem plain_mirrors (wrap : ListenerId → κ) {k : Reply} {c : HostCall NodeId Nat k}
    (hc : c.Plain) :
    Leads (fun d d' : Document κ => d.Mirrors → d'.Mirrors) ((host wrap).perform c) := by
  have hR := (mirrors_strokes (κ := κ)).chains
  cases c with
  | listen id eventType listener =>
    show Leads _ (listen id eventType (wrap listener))
    refine (Step.leads_modify fun d hd => hd).bind hR fun _ => (Step.leads_get hR).bind hR fun d => ?_
    exact Step.Leads.bind hR (change_mirrors id fun _ hn => hn) fun _ => Step.leads_pure hR _
  | unlisten id eventType binding =>
    exact change_mirrors id fun _ hn => hn
  | setAttribute | removeAttribute | setProperty => exact hc.elim
  | _ => exact mirrors_strokes.perform_leads wrap trivial

/-! ## Attributes together with their properties -/

/-- `d'` is `d` with another content of a node. -/
def Refilled (id : NodeId) (content : Content) (d d' : Document κ) : Prop :=
  ∀ id', d'.node? id' =
    if id = id' then (d.node? id).map fun n => { n with content } else d.node? id'

theorem Refilled.trans {id : NodeId} {content content' : Content} {d' d'' : Document κ}
    (h : Refilled id content d d') (h' : Refilled id content' d' d'') :
    Refilled id content' d d'' := by
  intro id'
  rw [h', h, if_pos rfl, Option.map_map]
  split
  · rfl
  · rename_i hne
    rw [h, if_neg hne]

theorem Refilled.mirrors {id : NodeId} {content : Content} {d' : Document κ}
    (h : Refilled id content d d') (hcontent : content.Mirrored) (hd : d.Mirrors) :
    d'.Mirrors := by
  rw [mirrors_iff] at hd ⊢
  intro id' m hm
  rw [h] at hm
  split at hm
  · obtain ⟨n, -, rfl⟩ := Option.map_eq_some_iff.mp hm
    exact hcontent
  · exact hd id' m hm

/-- What an element contains can be changed. -/
theorem changeElement_of_element {id : NodeId} {n : Node κ} {tag : String}
    {attributes : OrderedMap String String} {properties : Properties} (hn : d.node? id = some n)
    (hc : n.content = .element tag attributes properties)
    (f : OrderedMap String String → Properties → OrderedMap String String × Properties) :
    ∃ d', changeElement id f d = .ok () d' ∧ Refilled id
      (.element tag (f attributes properties).1 (f attributes properties).2) d d' := by
  let content := Content.element tag (f attributes properties).1 (f attributes properties).2
  obtain ⟨d', hok⟩ : ∃ d', change id (fun n => { n with content }) d = .ok () d' :=
    ⟨_, change_of_known (known_of_node? hn) _⟩
  refine ⟨d', ?_, fun id' => ?_⟩
  · rw [changeElement, Step.bind_ok (look_of_node? hn), hc]
    exact hok
  · rw [node?_of_change hok]
    split
    · rename_i he
      rw [he]
    · rfl

theorem changeElement_of_text {id : NodeId} (hk : d.Known id) (h : d.tag? id = none)
    (f : OrderedMap String String → Properties → OrderedMap String String × Properties) :
    changeElement id f d = .error (.attributesOfText id.index) d := by
  obtain ⟨n, hn⟩ := known_iff.mp hk
  rw [changeElement, Step.bind_ok (look_of_node? hn)]
  cases hc : n.content with
  | text t => rfl
  | element tag attributes properties =>
    rw [tag?_eq_bind, hn, Option.bind_some, hc] at h
    cases h

/-- A text or an unknown node is refused, and nothing happens. -/
theorem changeElement_of_other {id : NodeId} (h : d.tag? id = none)
    (f : OrderedMap String String → Properties → OrderedMap String String × Properties) :
    ∃ e, changeElement id f d = .error e d := by
  by_cases hid : d.Known id
  · exact ⟨_, changeElement_of_text hid h f⟩
  · exact ⟨_, by rw [changeElement, Step.bind_error (look_of_unknown hid)]⟩

end Document

end TreeEdit
