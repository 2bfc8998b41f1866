import TreeEdit.Proofs.Document.Effects
import TreeEdit.Proofs.Document.Unfolding

/-!
# The life of a document

A document starts without nodes or with a container alone, and from then on it is only called. The
calls may name any nodes, and some of them may be refused. Whatever their order, the document stays
a forest: `forest_of_reachable`.
-/

namespace TreeEdit.Document

variable {κ : Type} {d d' : Document κ}

/-! ## Calls one after another -/

/-- `d'` is what some call to `d` leaves behind, whether it is done or refused. -/
def Turns (d d' : Document κ) : Prop :=
  ∃ (wrap : ListenerId → κ) (k : Reply) (c : HostCall NodeId Nat k),
    d' = Step.after ((host wrap).perform c) d

/-- Some calls, one after another, lead from `d` to `d'`. -/
def LeadsTo (d d' : Document κ) : Prop :=
  Relation.ReflTransGen Turns d d'

/-- The document can come up in a life that starts without nodes or with a container. -/
def Reachable (d : Document κ) : Prop :=
  LeadsTo empty d ∨ ∃ tag, LeadsTo (withContainer tag).1 d

theorem Reachable.leadsTo (h : Reachable d) (h' : LeadsTo d d') : Reachable d' := by
  rcases h with h | ⟨tag, h⟩
  · exact .inl (h.trans h')
  · exact .inr ⟨tag, h.trans h'⟩

theorem Reachable.perform (h : Reachable d) (wrap : ListenerId → κ) {k : Reply}
    (c : HostCall NodeId Nat k) : Reachable (Step.after ((host wrap).perform c) d) :=
  h.leadsTo (.single ⟨wrap, k, c, rfl⟩)

/-! ## What every call keeps -/

/-- `d'` has all nodes of `d`, and those that are elements have the tags that they had. -/
structure Extends (d d' : Document κ) : Prop where
  size_le : d.size ≤ d'.size
  tag?_eq : ∀ id, d.Known id → d'.tag? id = d.tag? id

theorem Extends.refl (d : Document κ) : Extends d d := ⟨le_rfl, fun _ _ => rfl⟩

theorem Extends.trans {d'' : Document κ} (h : Extends d d') (h' : Extends d' d'') :
    Extends d d'' := by
  refine ⟨h.size_le.trans h'.size_le, fun id hid => ?_⟩
  rw [h'.tag?_eq id (Nat.lt_of_lt_of_le hid h.size_le), h.tag?_eq id hid]

theorem Turns.wellFormed_extends (hd : d.WellFormed) (h : Turns d d') :
    d'.WellFormed ∧ Extends d d' := by
  obtain ⟨wrap, k, c, rfl⟩ := h
  have hc := perform_meets hd wrap c
  rw [Meets, Step.Ends] at hc
  rw [Step.after]
  split at hc
  · exact ⟨hc.wellFormed, hc.size_le, hc.tag?_eq⟩
  · rename_i e d₁ _
    -- the nodes are as they were, and nothing else is looked at
    obtain ⟨hn, -⟩ := hc
    have hnode (id : NodeId) : d₁.node? id = d.node? id := by rw [node?, node?, hn]
    refine ⟨hd.of_same_links (fun id => ?_) (fun id => ?_) fun id hid => ?_, ?_, fun id _ => ?_⟩
    · rw [parent?, parent?, hnode]
    · rw [children, children, hnode]
    · rwa [tag?_eq_bind, hnode, ← tag?_eq_bind]
    · rw [size, size, hn]
    · rw [tag?_eq_bind, hnode, ← tag?_eq_bind]

theorem LeadsTo.wellFormed_extends (hd : d.WellFormed) (h : LeadsTo d d') :
    d'.WellFormed ∧ Extends d d' := by
  induction h with
  | refl => exact ⟨hd, .refl d⟩
  | tail _ hstep ih =>
    obtain ⟨hwf, hext⟩ := Turns.wellFormed_extends ih.1 hstep
    exact ⟨hwf, ih.2.trans hext⟩

/-! ## The start -/

/-- A document without links is a forest. -/
theorem wellFormed_of_no_links (hp : ∀ id, d.parent? id = none) (hc : ∀ id, d.children id = []) :
    d.WellFormed where
  nodup p := by
    rw [hc]
    exact List.nodup_nil
  linked p c := by simp [hp, hc]
  bearing c p h := by
    rw [hp] at h
    cases h
  acyclic n h := by
    obtain ⟨c, _, h⟩ := below_iff.mp h
    rw [hp] at h
    cases h

theorem empty_wellFormed : (empty : Document κ).WellFormed :=
  wellFormed_of_no_links (fun _ => rfl) fun _ => rfl

theorem withContainer_wellFormed (tag : String) :
    ((withContainer tag).1 : Document κ).WellFormed := by
  have hnode (id : NodeId) : ((withContainer tag).1 : Document κ).node? id = none ∨
      ((withContainer tag).1 : Document κ).node? id
        = some (.detached (.element tag .empty .untouched)) := by
    obtain ⟨_ | index⟩ := id
    · exact .inr rfl
    · exact .inl rfl
  refine wellFormed_of_no_links (fun id => ?_) fun id => ?_
  · rcases hnode id with h | h
    · rw [parent?, h]
      rfl
    · rw [parent?, h]
      rfl
  · rcases hnode id with h | h
    · rw [children, h]
      rfl
    · rw [children, h]
      rfl

theorem Reachable.wellFormed (h : Reachable d) : d.WellFormed := by
  rcases h with h | ⟨tag, h⟩
  · exact (h.wellFormed_extends empty_wellFormed).1
  · exact (h.wellFormed_extends (withContainer_wellFormed tag)).1

/-- A container with a seed comes up in two calls. -/
theorem withSeed_reachable (container seed : String) :
    (withSeed container seed : Document ListenerId).Reachable := by
  have start : Reachable ((withContainer container).1 : Document ListenerId) :=
    .inr ⟨container, .refl⟩
  exact (start.perform id (.createElement seed)).perform id (.append ⟨0⟩ ⟨1⟩)

/-! ## Forests for life -/

/-- A forest that stays one. Its links agree, and its ways up and down end, so that the search for
an ancestor and the readings of a subtree are what they would be without a bound on their steps. -/
structure Lasting (d : Document κ) : Prop extends WellFormed d where
  /-- Both ends of a link are there. -/
  known : ∀ c p, d.parent? c = some p → d.Known c ∧ d.Known p
  /-- A text has no children. -/
  barren : ∀ n m t, d.node? n = some m → m.content = .text t → m.children = []
  /-- No node can be gone up from forever. -/
  up : WellFounded fun p c => d.parent? c = some p
  /-- No node can be gone down from forever. -/
  down : WellFounded fun c p => c ∈ d.children p
  search : ∀ a n, d.isInclusiveAncestor a n = true ↔ d.Within n a
  search_step : ∀ a n, d.isInclusiveAncestor a n
    = (decide (n = a) ||
        match d.parent? n with
        | some p => d.isInclusiveAncestor a p
        | none => false)
  reading : ∀ n m, d.node? n = some m →
    match m.content with
    | .text t => d.markup n = String.ofList (t.toList.flatMap Tree.escapeText)
        ∧ d.textContent n = t
    | .element tag attributes _ =>
      d.markup n = String.ofList (Tree.startTag tag attributes.entries
          ++ m.children.flatMap (fun c => (d.markup c).toList) ++ Tree.endTag tag)
        ∧ d.textContent n = String.ofList (m.children.flatMap fun c => (d.textContent c).toList)
  /-- No node is ever lost, made a text or made an element, or given another tag. -/
  lasting : ∀ d', LeadsTo d d' → Extends d d'

/-- Whatever calls are made, a document is a forest. -/
theorem forest_of_reachable (h : Reachable d) : Lasting d := by
  have hd := h.wellFormed
  refine
    { hd with
      known := fun c p hc => ⟨known_of_parent? hc, hd.known_parent hc⟩
      barren := fun n m t hn hm => ?_
      up := hd.wellFounded_up
      down := hd.wellFounded_down
      search := fun a n => hd.isInclusiveAncestor_iff
      search_step := hd.isInclusiveAncestor_step
      reading := fun n m hn => ?_
      lasting := fun d' hd' => (hd'.wellFormed_extends hd).2 }
  · have ht : d.tag? n = none := by
      rw [tag?_eq_bind, hn, Option.bind_some, hm]
      rfl
    rw [← children_of_node? hn]
    exact hd.children_leaf ht
  · split
    · rename_i t hm
      exact ⟨hd.markup_of_text hn hm, hd.textContent_of_text hn hm⟩
    · rename_i tag attributes properties hm
      exact ⟨hd.markup_of_element hn hm, hd.textContent_of_element hn hm⟩

/-- A container that has a child, after it is refused to become a child of that. -/
theorem forest_after_refused_cycle :
    Reachable (Step.after ((host id).perform (.append ⟨1⟩ ⟨0⟩))
        (withSeed "main" "p" : Document ListenerId))
      ∧ Lasting (Step.after ((host id).perform (.append ⟨1⟩ ⟨0⟩))
        (withSeed "main" "p" : Document ListenerId)) := by
  have start : Reachable ((withContainer "main").1 : Document ListenerId) :=
    .inr ⟨"main", .refl⟩
  have seeded := (start.perform id (.createElement "p")).perform id (.append ⟨0⟩ ⟨1⟩)
  have cycle := seeded.perform id (.append ⟨1⟩ ⟨0⟩)
  exact ⟨cycle, forest_of_reachable cycle⟩

end TreeEdit.Document
