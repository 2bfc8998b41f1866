import TreeEdit.Proofs.Document.Building

/-!
# First children put in the place of others

A new subtree that takes the place of the first child of a node leaves the other children where they
are, with the trees that they have (`Swapped`). The child that had the place is out of the document,
but still there. Swapping the first child again and again comes to swapping it once, for the last
subtree (`Swapped.trans`): what is read off the node is the same, although the names of the new
nodes are others each time (`Renewed.tree?_eq`).
-/

namespace TreeEdit.Document

variable {κ : Type} {d d₁ d' : Document κ} {n old new old' new' : NodeId}
  {rest rest' : List NodeId} {t t' : Tree} {tag : String} {attributes : List (String × String)}
  {children : List Tree}

/-- `d'` is `d` with the new node `new`, which heads the tree `t`, in the place of the first child
`old` of `n`. The children `rest` come after it in both. -/
structure Swapped (n old new : NodeId) (rest : List NodeId) (t : Tree) (d d' : Document κ) :
    Prop where
  wellFormed : d'.WellFormed
  size_le : d.size ≤ d'.size
  before : d.children n = old :: rest
  fresh : ¬ d.Known new
  /-- Of `n`, nothing but the list of its children has changed. -/
  parent : d'.node? n = (d.node? n).map fun m => { m with children := new :: rest }
  /-- The old child has lost nothing but its parent. -/
  replaced : d'.node? old = (d.node? old).map fun m => { m with parent := none }
  others : ∀ id, d.Known id → id ≠ n → id ≠ old → d'.node? id = d.node? id
  tree : d'.tree? new = some t

/-- `d'` is `d` with a new first child of `n`, which heads the tree `t`, for the first child that
there was. -/
def Renewed (n : NodeId) (t : Tree) (d d' : Document κ) : Prop :=
  ∃ old new rest, Swapped n old new rest t d d'

theorem known_of_children_cons (h : d.children n = old :: rest) : d.Known n := by
  by_contra hn
  rw [children_of_unknown hn] at h
  cases h

theorem WellFormed.parent?_of_children_cons (hd : d.WellFormed) (h : d.children n = old :: rest) :
    d.parent? old = some n := by
  rw [← hd.linked, h]
  exact List.mem_cons_self

namespace Swapped

theorem children_eq (h : Swapped n old new rest t d d') : d'.children n = new :: rest := by
  obtain ⟨m, hm⟩ := known_iff.mp (known_of_children_cons h.before)
  have hself := h.parent
  rw [hm, Option.map_some] at hself
  exact children_of_node? hself

theorem parent?_old (h : Swapped n old new rest t d d') (hd : d.WellFormed) :
    d.parent? old = some n :=
  hd.parent?_of_children_cons h.before

/-- Above the node, nothing has changed. -/
theorem children_of_not_within (h : Swapped n old new rest t d d') (hd : d.WellFormed)
    {p : NodeId} (hp : d.Known p) (hn : ¬ d.Within p n) : d'.children p = d.children p := by
  have hne : p ≠ n := by
    rintro rfl
    exact hn .refl
  have hold : p ≠ old := by
    rintro rfl
    exact hn (.single (h.parent?_old hd))
  rw [Document.children, h.others p hp hne hold, Document.children]

/-- The children after the first one have kept their trees, because neither the node nor its old
child is in any of them. -/
theorem tree?_rest (h : Swapped n old new rest t d d') (hd : d.WellFormed) {c : NodeId}
    (hc : c ∈ rest) : d'.tree? c = d.tree? c := by
  have hparent : d.parent? c = some n := by
    rw [← hd.linked, h.before]
    exact List.mem_cons_of_mem _ hc
  have hn : ¬ d.Within n c := hd.not_within_of_parent? hparent
  have hnodup := hd.nodup n
  rw [h.before, List.nodup_cons] at hnodup
  refine tree?_congr hd h.wellFormed fun y hy => face_of_node? (h.others y ?_ ?_ ?_)
  · exact known_of_within_known hy (known_of_parent? hparent)
  · rintro rfl
    exact hn hy
  · rintro rfl
    obtain rfl | ⟨p, hp, hpc⟩ := hy.cases_head
    · exact hnodup.1 hc
    · cases (h.parent?_old hd).symm.trans hp
      exact hn hpc

/-- The tree of the node has the new subtree for its first one. -/
theorem tree?_eq (h : Swapped n old new rest t d d') (hd : d.WellFormed)
    (ht : d.tree? n = some (.element tag attributes children)) :
    ∃ first others, children = first :: others ∧
      d'.tree? n = some (.element tag attributes (t :: others)) := by
  obtain ⟨m, map, properties, hm, hcontent, hmap, hsub⟩ := (tree?_eq_element_iff hd).mp ht
  obtain ⟨mo, hmo⟩ := known_iff.mp (known_of_parent? (h.parent?_old hd))
  have hfirst : d.tree? old = some (growth d.tree? mo) := by
    rw [hd.tree?_eq, hmo, Option.map_some]
  rw [← children_of_node? hm, h.before, List.filterMap_cons_some hfirst] at hsub
  refine ⟨_, _, hsub.symm, (tree?_eq_element_iff h.wellFormed).mpr
    ⟨{ m with children := new :: rest }, map, properties, ?_, hcontent, hmap, ?_⟩⟩
  · rw [h.parent, hm, Option.map_some]
  · rw [List.filterMap_cons_some h.tree,
      List.filterMap_congr fun c hc => h.tree?_rest hd hc]

/-- What was put in is replaced in its turn. -/
theorem trans (h : Swapped n old new rest t d d₁) (hd : d.WellFormed)
    (h' : Swapped n old' new' rest' t' d₁ d') : Swapped n old new' rest t' d d' := by
  obtain ⟨rfl, rfl⟩ : old' = new ∧ rest' = rest := by
    have hchildren := h'.before.symm.trans h.children_eq
    exact ⟨(List.cons.inj hchildren).1, (List.cons.inj hchildren).2⟩
  have hold := known_of_parent? (h.parent?_old hd)
  have hlater {id : NodeId} (hid : d.Known id) : d₁.Known id := Nat.lt_of_lt_of_le hid h.size_le
  have hne {id : NodeId} (hid : d.Known id) : id ≠ old' := by
    rintro rfl
    exact h.fresh hid
  refine ⟨h'.wellFormed, h.size_le.trans h'.size_le, h.before, fun hnew => h'.fresh (hlater hnew),
    ?_, ?_, fun id hid hn ho => ?_, h'.tree⟩
  · rw [h'.parent, h.parent, Option.map_map]
    rfl
  · have holdn : old ≠ n := by
      rintro rfl
      exact hd.not_within_of_parent? (h.parent?_old hd) .refl
    rw [h'.others old (hlater hold) holdn (hne hold), h.replaced]
  · rw [h'.others id (hlater hid) hn (hne hid), h.others id hid hn ho]

end Swapped

namespace Renewed

theorem wellFormed (h : Renewed n t d d') : d'.WellFormed := by
  obtain ⟨old, new, rest, h⟩ := h
  exact h.wellFormed

theorem children_ne_nil (h : Renewed n t d d') : d'.children n ≠ [] := by
  obtain ⟨old, new, rest, h⟩ := h
  rw [h.children_eq]
  exact List.cons_ne_nil _ _

theorem trans (h : Renewed n t d d₁) (hd : d.WellFormed) (h' : Renewed n t' d₁ d') :
    Renewed n t' d d' := by
  obtain ⟨old, new, rest, h⟩ := h
  obtain ⟨_, new', _, h'⟩ := h'
  exact ⟨old, new', rest, h.trans hd h'⟩

/-- What is read off the node does not depend on the names of the nodes that are new. -/
theorem tree?_eq (h : Renewed n t d d₁) (hd : d.WellFormed) (h' : Renewed n t d d') :
    d'.tree? n = d₁.tree? n := by
  obtain ⟨old, new, rest, h⟩ := h
  obtain ⟨old', new', rest', h'⟩ := h'
  have hn : (d.tag? n).isSome := hd.bearing old n (h.parent?_old hd)
  obtain ⟨tag, attributes, children, ht⟩ := (tag?_isSome_iff_tree? hd).mp hn
  obtain ⟨first, others, rfl, ht₁⟩ := h.tree?_eq hd ht
  obtain ⟨first', others', hchildren, ht'⟩ := h'.tree?_eq hd ht
  rw [ht₁, ht', (List.cons.inj hchildren).2]

theorem markup_eq (h : Renewed n t d d₁) (hd : d.WellFormed) (h' : Renewed n t d d') :
    d'.markup n = d₁.markup n := by
  rw [markup, h.tree?_eq hd h', markup]

end Renewed

/-! ## Putting a new node in -/

/-- What is replaced stands at one place of the list only, so what comes first is replaced there. -/
theorem Replaced.first (r : Replaced n old new d d') (hd : d.WellFormed)
    (h : (d.children n).filter (· ≠ new) = old :: rest) :
    Relinked d d' (Function.update (Function.update d.parent? old none) new (some n))
      (Function.update (fun q => (d.children q).filter (· ≠ new)) n (new :: rest)) := by
  obtain ⟨before, after, hlist, r⟩ := r
  have hnodup := (hd.nodup n).filter (· ≠ new)
  rw [h] at hlist hnodup
  cases before with
  | nil =>
    obtain ⟨-, rfl⟩ := List.cons.inj hlist
    exact r
  | cons first before =>
    obtain ⟨-, hrest⟩ := List.cons.inj hlist
    refine absurd ?_ (List.nodup_cons.mp hnodup).1
    rw [hrest]
    exact List.mem_append_right _ List.mem_cons_self

/-- A raised node may be put in the place of a first child. -/
theorem Raised.replace (h : Raised new t d d₁) (hd : d.WellFormed)
    (hn : d.children n = old :: rest) :
    ∃ d', replace old new d₁ = .ok () d' ∧ Swapped n old new rest t d d' := by
  have hd₁ := h.wellFormed
  have hkn := known_of_children_cons hn
  have hparent := hd.parent?_of_children_cons hn
  have hold := known_of_parent? hparent
  have hparent₁ : d₁.parent? old = some n := by rwa [parent?, h.others old hold]
  have hnx := h.not_within hd hkn
  obtain ⟨d', hok, r⟩ :=
    replace_of_known hd₁ hparent₁ (h.ne_of_known hold) (known_of_tree? hd₁ h.tree) hnx
  have hd' := r.wellFormed hd₁ hparent₁ hnx
  have hlist : (d₁.children n).filter (· ≠ new) = old :: rest := by
    rw [h.filter_children, Document.children, h.others n hkn]
    exact hn
  have r := r.first hd₁ hlist
  have hnold : n ≠ old := by
    rintro rfl
    exact hd.not_within_of_parent? hparent .refl
  refine ⟨d', hok, hd', h.size_le.trans r.size_eq.ge, hn, h.fresh, ?_, ?_,
    fun id hid hidn hido => ?_, ?_⟩
  · rw [r.nodes, Function.update_self, Function.update_of_ne (h.ne_of_known hkn),
      Function.update_of_ne hnold, h.others n hkn]
    refine Option.map_congr fun m hm => ?_
    rw [parent?, h.others n hkn, hm]
    rfl
  · rw [r.nodes, Function.update_of_ne (h.ne_of_known hold), Function.update_self,
      Function.update_of_ne hnold.symm, h.filter_children, h.others old hold]
    refine Option.map_congr fun m hm => ?_
    rw [Document.children, h.others old hold, hm]
    rfl
  · rw [r.node?_eq, h.others id hid]
    · rw [Function.update_of_ne (h.ne_of_known hid), Function.update_of_ne hido]
    · rw [Function.update_of_ne hidn, h.filter_children]
  · rw [← h.tree]
    refine tree?_congr hd₁ hd' fun y hy => r.face_eq ?_
    rw [Function.update_of_ne, h.filter_children]
    rintro rfl
    exact hnx hy

end TreeEdit.Document
