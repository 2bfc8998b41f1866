import TreeEdit.Proofs.Document.Effects
import TreeEdit.Proofs.Document.Unfolding
import TreeEdit.Proofs.OrderedMap

/-!
# How calls build subtrees

A subtree is built where nothing sees it yet: a new node has no parent, is given its attributes and
children, and is then added to its parent. `Raised` says that a new node stands in the document with
a tree of its own, and `Grown` that a node was given attributes and trees. The two lead to each
other: growing a raised node raises a larger tree (`Raised.grow`), and adding a raised node to its
parent grows the parent (`Raised.append`).

Both go by what is read off the document as a `Tree`, so that which names the new nodes have does
not matter. What a node contains is not lost by work elsewhere, because a tree is read off its own
nodes only (`tree?_congr`).
-/

namespace TreeEdit.Document

open OrderedMap (condense)

variable {κ : Type} {d d₁ d₂ d' : Document κ} {n x : NodeId} {tag : String}
  {attributes settings settings' : List (String × String)} {children trees trees' : List Tree}
  {t : Tree}

/-! ## Trees and the nodes that they are read off -/

/-- What a tree shows of one of its nodes. -/
def face (d : Document κ) (id : NodeId) : Option (Content × List NodeId) :=
  (d.node? id).map fun m => (m.content, m.children)

theorem face_of_node? {id : NodeId} (h : d'.node? id = d.node? id) : d'.face id = d.face id := by
  rw [face, h, face]

theorem Relinked.face_eq {P : NodeId → Option NodeId} {C : NodeId → List NodeId}
    (r : Relinked d d' P C) {id : NodeId} (hc : C id = d.children id) : d'.face id = d.face id := by
  rw [face, r.nodes, face, hc]
  cases hm : d.node? id with
  | none => rfl
  | some m =>
    rw [children_of_node? hm]
    rfl

theorem known_of_within_known {y : NodeId} (h : d.Within y x) (hx : d.Known x) : d.Known y := by
  rcases h.cases_head with rfl | ⟨p, hp, -⟩
  · exact hx
  · exact known_of_parent? hp

/-- A tree stays as it is if its nodes do. -/
theorem tree?_congr (hd : d.WellFormed) (hd' : d'.WellFormed)
    (h : ∀ y, d.Within y x → d'.face y = d.face y) : d'.tree? x = d.tree? x := by
  -- down from `x`: whatever is below a child is below `x`
  induction x using hd.wellFounded_down.induction with
  | _ x ih =>
    have hx := h x .refl
    rw [face, face] at hx
    rw [hd.tree?_eq, hd'.tree?_eq]
    cases hm : d.node? x with
    | none =>
      rw [hm, Option.map_none, Option.map_eq_none_iff] at hx
      rw [hx]
      rfl
    | some m =>
      rw [hm, Option.map_some, Option.map_eq_some_iff] at hx
      obtain ⟨m', hm', hface⟩ := hx
      obtain ⟨hcontent, hchildren⟩ := Prod.mk.inj hface
      have hsub : m'.children.filterMap d'.tree? = m.children.filterMap d.tree? := by
        rw [hchildren]
        refine List.filterMap_congr fun c hc => ?_
        rw [← children_of_node? hm] at hc
        exact ih c hc fun y hy => h y (hy.tail ((hd.linked x c).mp hc))
      rw [hm', Option.map_some, Option.map_some, growth, growth, hcontent, hsub]

theorem tree?_eq_element_iff (hd : d.WellFormed) :
    d.tree? n = some (.element tag attributes children) ↔
      ∃ m map properties, d.node? n = some m ∧ m.content = .element tag map properties ∧
        map.entries = attributes ∧ m.children.filterMap d.tree? = children := by
  rw [hd.tree?_eq]
  cases hm : d.node? n with
  | none => simp
  | some m => cases hc : m.content <;> simp [growth, hc]

theorem tag?_isSome_iff_tree? (hd : d.WellFormed) : (d.tag? n).isSome ↔
    ∃ tag attributes children, d.tree? n = some (.element tag attributes children) := by
  rw [tag?_isSome_iff]
  simp only [tree?_eq_element_iff hd]
  constructor
  · rintro ⟨m, tag, map, properties, hm, hc⟩
    exact ⟨tag, _, _, m, map, properties, hm, hc, rfl, rfl⟩
  · rintro ⟨tag, _, _, m, map, properties, hm, hc, -, -⟩
    exact ⟨m, tag, map, properties, hm, hc⟩

theorem known_of_tree? (hd : d.WellFormed) (h : d.tree? x = some t) : d.Known x := by
  rw [hd.tree?_eq, Option.map_eq_some_iff] at h
  obtain ⟨m, hm, -⟩ := h
  exact known_of_node? hm

/-- The trees of the children are all there. -/
theorem map_children_tree? (hd : d.WellFormed)
    (h : d.tree? n = some (.element tag attributes children)) :
    (d.children n).map d.tree? = children.map some := by
  obtain ⟨m, map, properties, hm, -, -, hsub⟩ := (tree?_eq_element_iff hd).mp h
  rw [children_of_node? hm, ← hsub, List.map_filterMap_some_eq_filter_map_isSome, eq_comm,
    List.filter_eq_self]
  intro t ht
  obtain ⟨c, hc, rfl⟩ := List.mem_map.mp ht
  rw [← children_of_node? hm, hd.linked] at hc
  obtain ⟨m', hm'⟩ := known_iff.mp (known_of_parent? hc)
  rw [hd.tree?_eq, hm']
  rfl

/-! ## Growing a node -/

/-- `d'` is `d` where the attributes `settings` were set on the element `n`, one after another, and
`trees` were added to its children. Of the nodes that were there no other one has changed, and of
`n` only what it contains. -/
structure Grown (n : NodeId) (settings : List (String × String)) (trees : List Tree)
    (d d' : Document κ) : Prop where
  wellFormed : d'.WellFormed
  size_le : d.size ≤ d'.size
  others : ∀ id, d.Known id → id ≠ n → d'.node? id = d.node? id
  self : ∃ content new, d'.node? n
    = (d.node? n).map fun m => { m with content := content, children := m.children ++ new }
  tree : ∀ tag attributes children, d.tree? n = some (.element tag attributes children) →
    d'.tree? n = some (.element tag (condense (attributes ++ settings)) (children ++ trees))

namespace Grown

theorem known (h : Grown n settings trees d d') {id : NodeId} (hid : d.Known id) : d'.Known id :=
  Nat.lt_of_lt_of_le hid h.size_le

theorem tag?_isSome (h : Grown n settings trees d d') (hd : d.WellFormed)
    (hn : (d.tag? n).isSome) : (d'.tag? n).isSome := by
  obtain ⟨tag, attributes, children, ht⟩ := (tag?_isSome_iff_tree? hd).mp hn
  exact (tag?_isSome_iff_tree? h.wellFormed).mpr ⟨tag, _, _, h.tree tag attributes children ht⟩

theorem parent?_eq (h : Grown n settings trees d d') {id : NodeId} (hid : d.Known id) :
    d'.parent? id = d.parent? id := by
  by_cases hn : id = n
  · subst hn
    obtain ⟨content, new, hself⟩ := h.self
    rw [parent?, hself, parent?]
    cases d.node? id with
    | none => rfl
    | some m => rfl
  · rw [parent?, h.others id hid hn, parent?]

theorem children_eq (h : Grown n settings trees d d') :
    ∃ new, d'.children n = d.children n ++ new := by
  obtain ⟨content, new, hself⟩ := h.self
  cases hm : d.node? n with
  | none =>
    refine ⟨[], ?_⟩
    rw [Document.children, hself, Document.children, hm]
    rfl
  | some m =>
    refine ⟨new, ?_⟩
    rw [Document.children, hself, Document.children, hm]
    rfl

/-- The trees that were added are those of the new children, and the old ones have kept theirs. -/
theorem map_tree?_new (h : Grown n settings trees d d') (hd : d.WellFormed)
    (hn : (d.tag? n).isSome) :
    ∃ new, d'.children n = d.children n ++ new ∧ new.map d'.tree? = trees.map some ∧
      ∀ c ∈ d.children n, d'.tree? c = d.tree? c := by
  obtain ⟨tag, attributes, children, ht⟩ := (tag?_isSome_iff_tree? hd).mp hn
  obtain ⟨new, hnew⟩ := h.children_eq
  have hold := map_children_tree? hd ht
  have hall := map_children_tree? h.wellFormed (h.tree tag attributes children ht)
  rw [hnew, List.map_append, List.map_append] at hall
  have hlength := congrArg List.length hold
  rw [List.length_map] at hlength
  obtain ⟨hkept, hadded⟩ := List.append_inj hall (by rw [List.length_map, hlength])
  exact ⟨new, hnew, hadded, List.map_inj_left.mp (hkept.trans hold.symm)⟩

theorem refl (hd : d.WellFormed) : Grown n [] [] d d where
  wellFormed := hd
  size_le := le_rfl
  others _ _ _ := rfl
  self := by
    cases hm : d.node? n with
    | none => exact ⟨.text "", [], rfl⟩
    | some m =>
      refine ⟨m.content, [], ?_⟩
      rw [Option.map_some, List.append_nil]
  tree tag attributes children ht := by
    obtain ⟨m, map, properties, -, -, hmap, -⟩ := (tree?_eq_element_iff hd).mp ht
    rw [List.append_nil, List.append_nil, ← hmap, OrderedMap.condense_entries, hmap, ht]

theorem trans (h : Grown n settings trees d d₁) (h' : Grown n settings' trees' d₁ d') :
    Grown n (settings ++ settings') (trees ++ trees') d d' where
  wellFormed := h'.wellFormed
  size_le := h.size_le.trans h'.size_le
  others id hid hn := by rw [h'.others id (h.known hid) hn, h.others id hid hn]
  self := by
    obtain ⟨content, new, hself⟩ := h.self
    obtain ⟨content', new', hself'⟩ := h'.self
    refine ⟨content', new ++ new', ?_⟩
    rw [hself', hself, Option.map_map]
    refine Option.map_congr fun m _ => ?_
    show ({ m with content := content', children := m.children ++ new ++ new' } : Node κ) = _
    rw [List.append_assoc]
  tree tag attributes children ht := by
    rw [h'.tree tag _ _ (h.tree tag attributes children ht),
      OrderedMap.condense_condense_append, List.append_assoc, List.append_assoc]

end Grown

/-- A node that was given other attributes and more children has grown by these. The subtrees that
it had are as they were, because it is in none of them. -/
theorem grown_of_self (hd : d.WellFormed) (hd' : d'.WellFormed) (hsize : d.size ≤ d'.size)
    (hothers : ∀ id, d.Known id → id ≠ n → d'.node? id = d.node? id) {m : Node κ}
    (hm : d.node? n = some m) {map map' : OrderedMap String String}
    {properties properties' : Properties} (hc : m.content = .element tag map properties)
    {new : List NodeId} (hself : d'.node? n = some { m with
      content := .element tag map' properties', children := m.children ++ new })
    (hmap : map'.entries = condense (map.entries ++ settings))
    (hnew : new.filterMap d'.tree? = trees) : Grown n settings trees d d' where
  wellFormed := hd'
  size_le := hsize
  others := hothers
  self := ⟨_, new, by rw [hself, hm]; rfl⟩
  tree tag' attributes children ht := by
    obtain ⟨m', map₁, properties₁, hm', hc', hmap₁, hsub⟩ := (tree?_eq_element_iff hd).mp ht
    cases hm.symm.trans hm'
    cases hc.symm.trans hc'
    have hold : m.children.filterMap d'.tree? = m.children.filterMap d.tree? := by
      refine List.filterMap_congr fun c hmem => ?_
      rw [← children_of_node? hm, hd.linked] at hmem
      refine tree?_congr hd hd' fun y hy => face_of_node? (hothers y ?_ ?_)
      · exact known_of_within_known hy (known_of_parent? hmem)
      · rintro rfl
        exact hd.not_within_of_parent? hmem hy
    rw [tree?_eq_element_iff hd']
    refine ⟨_, map', properties', hself, rfl, ?_, ?_⟩
    · rw [hmap, hmap₁]
    · rw [List.filterMap_append, hold, hsub, hnew]

/-! ## Setting attributes -/

/-- A change of the attributes that comes to writing `settings`. -/
theorem grown_of_changeElement (hd : d.WellFormed) (hn : (d.tag? n).isSome)
    {f : OrderedMap String String → Properties → OrderedMap String String × Properties}
    (hf : ∀ map properties, (f map properties).1.entries = condense (map.entries ++ settings)) :
    ∃ d', changeElement n f d = .ok () d' ∧ Grown n settings [] d d' := by
  obtain ⟨m, tag, map, properties, hm, hc⟩ := tag?_isSome_iff.mp hn
  obtain ⟨d', hok, he⟩ := change_effect (N := (· = n)) (e := none)
    (f := fun m => { m with content := .element tag (f map properties).1 (f map properties).2 })
    hd (known_of_node? hm) rfl (fun _ => ⟨rfl, rfl⟩) fun m' hm' => by
      cases hm.symm.trans hm'
      rw [hc]
      rfl
  have hnode := node?_of_change hok
  have hself : d'.node? n = some { m with
      content := .element tag (f map properties).1 (f map properties).2
      children := m.children ++ [] } := by
    rw [hnode, if_pos rfl, hm, List.append_nil]
    rfl
  refine ⟨d', ?_, grown_of_self hd he.wellFormed he.size_le (fun id _ hid => ?_) hm hc hself
    (hf map properties) rfl⟩
  · rw [changeElement, Step.bind_ok (look_of_node? hm), hc]
    exact hok
  · rw [hnode, if_neg (Ne.symm hid)]

theorem grown_of_setAttribute (hd : d.WellFormed) (hn : (d.tag? n).isSome) (name value : String) :
    ∃ d', setAttribute n name value d = .ok () d' ∧ Grown n [(name, value)] [] d d' := by
  unfold setAttribute
  exact grown_of_changeElement hd hn fun map _ => map.entries_put name value

theorem grown_of_setProperty (hd : d.WellFormed) (hn : (d.tag? n).isSome) (property : Property) :
    ∃ d', setProperty n property d = .ok () d' ∧ Grown n [] [] d d' := by
  unfold setProperty
  refine grown_of_changeElement hd hn fun map _ => ?_
  rw [List.append_nil, OrderedMap.condense_entries]

/-! ## New subtrees -/

/-- `d'` is `d` with the new node `x`, which has no parent and heads the tree `t`. -/
structure Raised (x : NodeId) (t : Tree) (d d' : Document κ) : Prop where
  wellFormed : d'.WellFormed
  size_le : d.size ≤ d'.size
  fresh : ¬ d.Known x
  others : ∀ id, d.Known id → d'.node? id = d.node? id
  orphan : d'.parent? x = none
  tree : d'.tree? x = some t

theorem raised_of_allocate (hd : d.WellFormed) (content : Content) :
    ∃ d', allocate content d = .ok ⟨d.size⟩ d' ∧
      Raised ⟨d.size⟩ (growth (fun _ => none) (.detached content : Node κ)) d d' := by
  obtain ⟨d', h, r⟩ := allocate_eq content d
  have hwf := r.wellFormed hd
  refine ⟨d', h, hwf, ?_, Allocated.unknown_new d, fun id hid => r.node?_of_known hid, ?_, ?_⟩
  · rw [r.size_eq]
    exact Nat.le_succ _
  · rw [r.parent?_eq, parent?_of_unknown (Allocated.unknown_new d)]
  · rw [hwf.tree?_eq, r, if_pos rfl]
    rfl

namespace Raised

theorem ne_of_known (h : Raised x t d d') {id : NodeId} (hid : d.Known id) : id ≠ x := by
  rintro rfl
  exact h.fresh hid

/-- The new node stands in no list of children, so none is without it. -/
theorem filter_children (h : Raised x t d d') (id : NodeId) :
    (d'.children id).filter (· ≠ x) = d'.children id :=
  h.wellFormed.filter_children (by rw [h.orphan]; exact (Option.some_ne_none id).symm)

theorem grow (h : Raised x (.element tag attributes children) d d₁)
    (h' : Grown x settings trees d₁ d') :
    Raised x (.element tag (condense (attributes ++ settings)) (children ++ trees)) d d' where
  wellFormed := h'.wellFormed
  size_le := h.size_le.trans h'.size_le
  fresh := h.fresh
  others id hid := by
    rw [h'.others id (Nat.lt_of_lt_of_le hid h.size_le) (h.ne_of_known hid), h.others id hid]
  orphan := by rw [h'.parent?_eq (known_of_tree? h.wellFormed h.tree), h.orphan]
  tree := h'.tree tag attributes children h.tree

/-- No way up from an old node leads to the new one. -/
theorem not_within (h : Raised x t d d₁) (hd : d.WellFormed) (hn : d.Known n) :
    ¬ d₁.Within n x := by
  have hold {a : NodeId} (ha : d₁.Within n a) : d.Known a := by
    induction ha with
    | refl => exact hn
    | @tail b c _ hbc hb =>
      rw [ParentOf, parent?, h.others b hb] at hbc
      exact hd.known_parent hbc
  exact fun hx => h.fresh (hold hx)

/-- Adding the new node to an old one adds its tree. -/
theorem append (h : Raised x t d d₁) (hd : d.WellFormed) (hn : (d.tag? n).isSome) :
    ∃ d', append n x d₁ = .ok () d' ∧ Grown n [] [t] d d' := by
  have hkn := known_of_tag? hn
  have hd₁ := h.wellFormed
  have hn₁ : (d₁.tag? n).isSome := by rwa [tag?, h.others n hkn]
  have hnx := h.not_within hd hkn
  obtain ⟨d', hok, r⟩ := append_of_known hd₁ hn₁ (known_of_tree? hd₁ h.tree) hnx
  have hd' := r.wellFormed hd₁ hn₁ hnx
  have hface (id : NodeId) (hid : id ≠ n) : d'.face id = d₁.face id := by
    refine Relinked.face_eq r ?_
    rw [Function.update_of_ne hid, h.filter_children]
  have hnode (id : NodeId) (hid : d.Known id) (hne : id ≠ n) : d'.node? id = d.node? id := by
    rw [Relinked.node?_eq r (Function.update_of_ne (h.ne_of_known hid) _ _) ?_, h.others id hid]
    rw [Function.update_of_ne hne, h.filter_children]
  obtain ⟨m, tag, map, properties, hm, hc⟩ := tag?_isSome_iff.mp hn
  have hm₁ : d₁.node? n = some m := by rw [h.others n hkn, hm]
  have hself : d'.node? n = some { m with
      content := .element tag map properties, children := m.children ++ [x] } := by
    rw [r.nodes, Function.update_self, h.filter_children,
      Function.update_of_ne (h.ne_of_known hkn), hm₁, parent?_of_node? hm₁,
      children_of_node? hm₁, ← hc]
    rfl
  have hnew : d'.tree? x = some t := by
    rw [← h.tree]
    refine tree?_congr hd₁ hd' fun y hy => hface y ?_
    rintro rfl
    exact hnx hy
  refine ⟨d', hok, grown_of_self hd hd' (h.size_le.trans r.size_eq.ge) hnode hm hc hself ?_ ?_⟩
  · rw [List.append_nil, OrderedMap.condense_entries]
  · rw [List.filterMap_cons_some hnew, List.filterMap_nil]

end Raised

end TreeEdit.Document
