import TreeEdit.Proofs.Document.Forest
import TreeEdit.Proofs.Steps

/-!
# How calls move nodes

The calls that move nodes change nothing but links. `Relinked d d' parent children` says so: `d'`
has the nodes of `d` with these parents and these children. For each of the calls this module says
when it is refused, and which links there are when it is not.

A refused call leaves the document exactly as it was. Every check of a call stands before its first
change, and after the checks nothing can go wrong in a well-formed document.
-/

namespace TreeEdit.Document

variable {κ : Type} {d d' d'' : Document κ} {id p c n old new : NodeId}

/-! ## Documents with other links -/

/-- `d'` has the nodes of `d`, with other links. -/
structure Relinked (d d' : Document κ) (parent : NodeId → Option NodeId)
    (children : NodeId → List NodeId) : Prop where
  nodes : ∀ id, d'.node? id
    = (d.node? id).map fun n => { n with parent := parent id, children := children id }
  strays : ∀ id, ¬ d.Known id → parent id = none ∧ children id = []

namespace Relinked

variable {P P' : NodeId → Option NodeId} {C C' : NodeId → List NodeId}

theorem known_iff (h : Relinked d d' P C) : d'.Known id ↔ d.Known id := by
  rw [← not_iff_not, ← node?_eq_none_iff, ← node?_eq_none_iff, h.nodes, Option.map_eq_none_iff]

theorem size_eq (h : Relinked d d' P C) : d'.size = d.size := by
  have h₁ : d'.Known ⟨d.size⟩ ↔ _ := h.known_iff
  have h₂ : d'.Known ⟨d'.size⟩ ↔ _ := h.known_iff
  simp only [Known] at h₁ h₂
  omega

theorem parent?_eq (h : Relinked d d' P C) (id : NodeId) : d'.parent? id = P id := by
  rw [parent?, h.nodes]
  cases hn : d.node? id with
  | none => exact (h.strays id (node?_eq_none_iff.mp hn)).1.symm
  | some n => rfl

theorem children_eq (h : Relinked d d' P C) (id : NodeId) : d'.children id = C id := by
  rw [children, h.nodes]
  cases hn : d.node? id with
  | none => exact (h.strays id (node?_eq_none_iff.mp hn)).2.symm
  | some n => rfl

theorem tag?_eq (h : Relinked d d' P C) (id : NodeId) : d'.tag? id = d.tag? id := by
  rw [tag?, tag?, h.nodes, Option.map_map]
  rfl

theorem trans (h : Relinked d d' P C) (h' : Relinked d' d'' P' C') : Relinked d d'' P' C' where
  nodes id := by
    rw [h'.nodes, h.nodes, Option.map_map]
    rfl
  strays id hid := h'.strays id (mt h.known_iff.mp hid)

/-- Only nodes with other links look different. -/
theorem node?_eq (h : Relinked d d' P C) (hp : P id = d.parent? id) (hc : C id = d.children id) :
    d'.node? id = d.node? id := by
  rw [h.nodes, hp, hc]
  cases hn : d.node? id with
  | none => rfl
  | some n =>
    rw [parent?_of_node? hn, children_of_node? hn]
    rfl

theorem refl (d : Document κ) : Relinked d d d.parent? d.children where
  nodes id := by
    cases hn : d.node? id with
    | none => rfl
    | some n =>
      rw [parent?_of_node? hn, children_of_node? hn]
      rfl
  strays _ hid := ⟨parent?_of_unknown hid, children_of_unknown hid⟩

theorem congr (h : Relinked d d' P C) (hp : ∀ id, P' id = P id) (hc : ∀ id, C' id = C id) :
    Relinked d d' P' C' := by
  rwa [funext hp, funext hc]

/-- New links that agree with each other make a forest again. -/
theorem wellFormed (h : Relinked d d' P C) (nodup : ∀ p, (C p).Nodup)
    (linked : ∀ p c, c ∈ C p ↔ P c = some p) (bearing : ∀ c p, P c = some p → (d.tag? p).isSome)
    (acyclic : ∀ n, ¬ d'.Below n n) : d'.WellFormed where
  nodup p := by
    rw [h.children_eq]
    exact nodup p
  linked p c := by
    rw [h.children_eq, h.parent?_eq]
    exact linked p c
  bearing c p hp := by
    rw [h.parent?_eq] at hp
    rw [h.tag?_eq]
    exact bearing c p hp
  acyclic := acyclic

end Relinked

/-! ## New ways up -/

/-- `d'` has no links up that `d` has not, but for the link `e` from a node to its new parent. -/
def LinksUpTo (e : Option (NodeId × NodeId)) (d d' : Document κ) : Prop :=
  ∀ x y, d'.parent? x = some y → d.parent? x = some y ∨ e = some (x, y)

/-- A way up that is new leads through the new link. -/
theorem LinksUpTo.within {e : Option (NodeId × NodeId)} (h : LinksUpTo e d d') {n a : NodeId}
    (hna : d'.Within n a) :
    d.Within n a ∨ ∃ c p, e = some (c, p) ∧ d.Within n c ∧ d.Within p a := by
  -- along the way from below: where the new link comes up twice, the way is cut short
  induction hna using Relation.ReflTransGen.head_induction_on with
  | refl => exact .inl .refl
  | @head n m hnm _ ih =>
    rcases h n m hnm with hold | hnew
    · rcases ih with hma | ⟨c, p, he, hmc, hpa⟩
      · exact .inl (.head hold hma)
      · exact .inr ⟨c, p, he, .head hold hmc, hpa⟩
    · rcases ih with hma | ⟨c, p, he, _, hpa⟩
      · exact .inr ⟨n, m, hnew, .refl, hma⟩
      · obtain ⟨rfl, rfl⟩ := Prod.mk.inj (Option.some.inj (hnew.symm.trans he))
        exact .inr ⟨n, m, hnew, .refl, hpa⟩

theorem LinksUpTo.below {e : Option (NodeId × NodeId)} (h : LinksUpTo e d d') {n a : NodeId}
    (hna : d'.Below n a) :
    d.Below n a ∨ ∃ c p, e = some (c, p) ∧ d.Within n c ∧ d.Within p a := by
  obtain ⟨x, hx, hxa⟩ := below_iff.mp hna
  rcases h.within hx with hnx | ⟨c, p, he, hnc, hpx⟩ <;> rcases h x a hxa with hold | hnew
  · exact .inl (.tail' hnx hold)
  · exact .inr ⟨x, a, hnew, hnx, .refl⟩
  · exact .inr ⟨c, p, he, hnc, hpx.tail hold⟩
  · obtain ⟨rfl, rfl⟩ := Prod.mk.inj (Option.some.inj (hnew.symm.trans he))
    exact .inr ⟨x, a, hnew, hnc, .refl⟩

/-- A new link makes no cycle unless it leads down. -/
theorem LinksUpTo.acyclic {e : Option (NodeId × NodeId)} (h : LinksUpTo e d d')
    (hd : d.WellFormed) (he : ∀ c p, e = some (c, p) → ¬ d.Within p c) (n : NodeId) :
    ¬ d'.Below n n := by
  intro hn
  rcases h.below hn with hold | ⟨c, p, hcp, hnc, hpn⟩
  · exact hd.acyclic n hold
  · exact he c p hcp (hpn.trans hnc)

/-- A document with the links of a forest is a forest. -/
theorem WellFormed.of_same_links (hd : d.WellFormed) (hp : ∀ id, d'.parent? id = d.parent? id)
    (hc : ∀ id, d'.children id = d.children id)
    (ht : ∀ id, (d.tag? id).isSome → (d'.tag? id).isSome) : d'.WellFormed where
  nodup p := by
    rw [hc]
    exact hd.nodup p
  linked p c := by
    rw [hc, hp]
    exact hd.linked p c
  bearing c p h := by
    rw [hp] at h
    exact ht p (hd.bearing c p h)
  acyclic := by
    have hlinks : LinksUpTo none d d' := fun x y hxy => .inl (hp x ▸ hxy)
    exact hlinks.acyclic hd nofun

/-! ## Single nodes -/

theorem look_of_node? {n : Node κ} (h : d.node? id = some n) : look id d = .ok n d := by
  rw [look, h]

theorem look_of_unknown (h : ¬ d.Known id) : look id d = .error (.unknownNode id.index) d := by
  rw [look, node?_eq_none_iff.mpr h]

theorem change_of_known (h : d.Known id) (f : Node κ → Node κ) :
    change id f d = .ok () { d with nodes := d.nodes.modify id.index f } :=
  if_pos h

theorem change_of_unknown (h : ¬ d.Known id) (f : Node κ → Node κ) :
    change id f d = .error (.unknownNode id.index) d :=
  if_neg h

/-- A change of links at one node. -/
theorem change_relinks {f : Node κ → Node κ} {P : NodeId → Option NodeId}
    {C : NodeId → List NodeId} (h : d.Known id)
    (hf : ∀ n, d.node? id = some n → f n = { n with parent := P id, children := C id })
    (hP : ∀ x, x ≠ id → P x = d.parent? x) (hC : ∀ x, x ≠ id → C x = d.children x) :
    ∃ d', change id f d = .ok () d' ∧ Relinked d d' P C := by
  refine ⟨_, change_of_known h f, ⟨fun x => ?_, fun x hx => ?_⟩⟩
  · rw [node?_of_change (change_of_known h f)]
    by_cases hx : id = x
    · subst hx
      rw [if_pos rfl]
      exact Option.map_congr fun n hn => hf n hn
    · rw [if_neg hx, hP x (Ne.symm hx), hC x (Ne.symm hx)]
      exact (Relinked.refl d).nodes x
  · have hne : x ≠ id := by
      rintro rfl
      exact hx h
    rw [hP x hne, hC x hne]
    exact ⟨parent?_of_unknown hx, children_of_unknown hx⟩

theorem setParent_of_known (h : d.Known id) (parent : Option NodeId) :
    ∃ d', setParent id parent d = .ok () d' ∧
      Relinked d d' (Function.update d.parent? id parent) d.children := by
  refine change_relinks h (fun n hn => ?_) (fun x hx => Function.update_of_ne hx _ _)
    fun _ _ => rfl
  rw [Function.update_self, children_of_node? hn]

theorem changeChildren_of_known (h : d.Known id) (f : List NodeId → List NodeId) :
    ∃ d', changeChildren id f d = .ok () d' ∧
      Relinked d d' d.parent? (Function.update d.children id (f (d.children id))) := by
  refine change_relinks h (fun n hn => ?_) (fun _ _ => rfl)
    fun x hx => Function.update_of_ne hx _ _
  rw [Function.update_self, parent?_of_node? hn, children_of_node? hn]

/-! ## Taking a node out -/

theorem remove_of_unknown (hc : ¬ d.Known c) :
    remove c d = .error (.unknownNode c.index) d :=
  Step.bind_error (look_of_unknown hc)

theorem WellFormed.filter_children (hd : d.WellFormed) (h : d.parent? c ≠ some p) :
    (d.children p).filter (· ≠ c) = d.children p := by
  rw [List.filter_eq_self]
  intro x hx
  rw [decide_eq_true_iff]
  rintro rfl
  exact h ((hd.linked p x).mp hx)

/-- `d'` is `d` with `c` taken out: `c` is in no list of children any more. -/
def Removed (c : NodeId) (d d' : Document κ) : Prop :=
  Relinked d d' (Function.update d.parent? c none) fun p => (d.children p).filter (· ≠ c)

theorem remove_of_known (hd : d.WellFormed) (hc : d.Known c) :
    ∃ d', remove c d = .ok () d' ∧ Removed c d d' := by
  obtain ⟨n, hn⟩ := known_iff.mp hc
  have hpar : d.parent? c = n.parent := parent?_of_node? hn
  obtain ⟨d₁, h₁, r₁⟩ := setParent_of_known hc none
  cases hp : n.parent with
  | none =>
    -- no list holds a node without a parent
    refine ⟨d₁, ?_, r₁.congr (fun _ => rfl) fun q => hd.filter_children ?_⟩
    · rw [remove, Step.bind_ok (look_of_node? hn), Step.bind_ok h₁, hp]
      rfl
    · rw [hpar, hp]
      exact nofun
  | some p =>
    have hkp : d₁.Known p := r₁.known_iff.mpr (hd.known_parent (hpar.trans hp))
    obtain ⟨d₂, h₂, r₂⟩ := changeChildren_of_known hkp (·.filter (· ≠ c))
    refine ⟨d₂, ?_, (r₁.trans r₂).congr (fun q => (r₁.parent?_eq q).symm) fun q => ?_⟩
    · rw [remove, Step.bind_ok (look_of_node? hn), Step.bind_ok h₁, hp]
      exact h₂
    · rw [r₁.children_eq p, funext r₁.children_eq, Function.update_apply]
      split
      · rename_i hq
        rw [hq]
      · rename_i hq
        refine hd.filter_children fun h => hq ?_
        exact Option.some.inj (h.symm.trans (hpar.trans hp))

theorem Removed.linksUpTo (r : Removed c d d') : LinksUpTo none d d' := by
  intro x y hxy
  rw [r.parent?_eq, Function.update_apply] at hxy
  split at hxy
  · cases hxy
  · exact .inl hxy

theorem Removed.wellFormed (r : Removed c d d') (hd : d.WellFormed) : d'.WellFormed := by
  refine Relinked.wellFormed r (fun p => (hd.nodup p).filter _) (fun p x => ?_)
    (fun x y hxy => ?_) (r.linksUpTo.acyclic hd nofun)
  · rw [List.mem_filter, hd.linked, decide_eq_true_iff, Function.update_apply]
    by_cases hx : x = c
    · simp [hx]
    · simp [hx]
  · rw [← r.parent?_eq] at hxy
    rcases r.linksUpTo x y hxy with hold | hnew
    · exact hd.bearing x y hold
    · cases hnew

/-! ## Adding a child -/

theorem append_of_unknown (hp : ¬ d.Known p) (c : NodeId) :
    append p c d = .error (.unknownNode p.index) d :=
  Step.bind_error (look_of_unknown hp)

theorem append_of_text (hk : d.Known p) (hp : d.tag? p = none) (c : NodeId) :
    append p c d = .error .childrenOfText d := by
  obtain ⟨n, hn⟩ := known_iff.mp hk
  rw [append, Step.bind_ok (look_of_node? hn)]
  cases hc : n.content with
  | text t => rfl
  | element tag attributes properties =>
    rw [tag?, hn, Option.map_some, hc] at hp
    cases hp

theorem append_of_within (hd : d.WellFormed) (hp : (d.tag? p).isSome) (h : d.Within p c) :
    append p c d = .error .appendCycle d := by
  obtain ⟨n, tag, attributes, properties, hn, hc⟩ := tag?_isSome_iff.mp hp
  rw [append, Step.bind_ok (look_of_node? hn), hc]
  dsimp only
  rw [Step.get_bind]
  rw [if_pos (hd.isInclusiveAncestor_iff.mpr h)]
  rfl

/-- After the checks, adding a child takes it out first and then links it from both sides. -/
theorem append_of_not_within (hd : d.WellFormed) (hp : (d.tag? p).isSome)
    (h : ¬ d.Within p c) :
    append p c d = (do
      remove c
      changeChildren p (· ++ [c])
      setParent c (some p)) d := by
  obtain ⟨n, tag, attributes, properties, hn, hc⟩ := tag?_isSome_iff.mp hp
  rw [append, Step.bind_ok (look_of_node? hn), hc]
  dsimp only
  rw [Step.get_bind]
  rw [if_neg (mt hd.isInclusiveAncestor_iff.mp h)]

theorem append_of_unknown_child (hd : d.WellFormed) (hp : (d.tag? p).isSome)
    (hc : ¬ d.Known c) : append p c d = .error (.unknownNode c.index) d := by
  have h : ¬ d.Within p c := fun h => hc (hd.known_of_within h (known_of_tag? hp))
  rw [append_of_not_within hd hp h]
  exact Step.bind_error (remove_of_unknown hc)

/-- `d'` is `d` with `c` as the last child of `p`. -/
def Appended (p c : NodeId) (d d' : Document κ) : Prop :=
  Relinked d d' (Function.update d.parent? c (some p))
    (Function.update (fun q => (d.children q).filter (· ≠ c)) p
      ((d.children p).filter (· ≠ c) ++ [c]))

theorem append_of_known (hd : d.WellFormed) (hp : (d.tag? p).isSome) (hc : d.Known c)
    (h : ¬ d.Within p c) : ∃ d', append p c d = .ok () d' ∧ Appended p c d d' := by
  obtain ⟨d₁, h₁, r₁⟩ := remove_of_known hd hc
  obtain ⟨d₂, h₂, r₂⟩ :=
    changeChildren_of_known (r₁.known_iff.mpr (known_of_tag? hp)) (· ++ [c])
  have hc₂ : d₂.Known c := r₂.known_iff.mpr (r₁.known_iff.mpr hc)
  obtain ⟨d₃, h₃, r₃⟩ := setParent_of_known hc₂ (some p)
  refine ⟨d₃, ?_, ((r₁.trans r₂).trans r₃).congr (fun q => ?_) fun q => ?_⟩
  · rw [append_of_not_within hd hp h, Step.bind_ok h₁, Step.bind_ok h₂]
    exact h₃
  · rw [funext r₂.parent?_eq, funext r₁.parent?_eq, Function.update_idem]
  · rw [r₂.children_eq, r₁.children_eq, funext r₁.children_eq]

theorem Appended.linksUpTo (r : Appended p c d d') : LinksUpTo (some (c, p)) d d' := by
  intro x y hxy
  rw [r.parent?_eq, Function.update_apply] at hxy
  split at hxy
  · rename_i hx
    cases hxy
    exact .inr (by rw [hx])
  · exact .inl hxy

theorem Appended.wellFormed (r : Appended p c d d') (hd : d.WellFormed)
    (hp : (d.tag? p).isSome) (h : ¬ d.Within p c) : d'.WellFormed := by
  -- every list has lost `c`, and the one of `p` has got it back at its end
  refine Relinked.wellFormed r (fun q => ?_) (fun q x => ?_) (fun x y hxy => ?_)
    (r.linksUpTo.acyclic hd fun c' p' he => ?_)
  · have hq := (hd.nodup q).filter (fun x => decide (x ≠ c))
    rw [Function.update_apply]
    split
    · rename_i hqp
      subst hqp
      rw [List.nodup_append]
      refine ⟨hq, List.nodup_singleton c, fun a ha b hb => ?_⟩
      rw [List.mem_singleton] at hb
      rw [hb]
      simpa using (List.mem_filter.mp ha).2
    · exact hq
  · have hl := hd.linked q x
    rw [Function.update_apply, Function.update_apply]
    by_cases hq : q = p <;> by_cases hx : x = c
    · simp [hq, hx]
    · subst hq
      simp [hx, hl]
    · simp [hq, hx, Ne.symm hq]
    · simp [hq, hx, hl]
  · rw [← r.parent?_eq] at hxy
    rcases r.linksUpTo x y hxy with hold | hnew
    · exact hd.bearing x y hold
    · cases hnew
      exact hp
  · cases he
    exact h

end TreeEdit.Document
