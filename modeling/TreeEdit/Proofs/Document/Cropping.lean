import Mathlib.Data.List.Perm.Subperm
import TreeEdit.Proofs.Document.Handlers

/-!
# Lists of children cut short

A node is removed together with the siblings after it one by one, and each time the list of the
parent is searched anew for the node that is next. `Cropped` says what has come of a document when
some nodes at the end of a list have been taken out of it, and composes along such a walk
(`Cropped.trans`). Which node is next is `WellFormed.nextSibling?_eq`, and how many there can be is
`WellFormed.length_children_le`.
-/

namespace TreeEdit.Document

variable {κ : Type} {d d₁ d' : Document κ} {n p : NodeId} {before after : List NodeId}

/-! ## Places in a list -/

theorem WellFormed.parent?_of_place (hd : d.WellFormed)
    (h : d.children p = before ++ n :: after) : d.parent? n = some p := by
  rw [← hd.linked, h]
  exact List.mem_append_right _ List.mem_cons_self

/-- The node after `n` in the list of its parent is the next sibling. -/
theorem WellFormed.nextSibling?_eq (hd : d.WellFormed) (h : d.children p = before ++ n :: after) :
    d.nextSibling? n = after.head? := by
  have hp := hd.parent?_of_place h
  have hnodup := hd.nodup p
  rw [h, List.nodup_append] at hnodup
  -- the search stops at the only place where the node stands
  have hplace : (before ++ n :: after).idxOf? n = some before.length := by
    rw [List.idxOf?_eq_some_iff]
    refine ⟨by simp, by simp, fun j hj he => ?_⟩
    rw [List.getElem_append_left hj] at he
    exact hnodup.2.2 _ (List.getElem_mem hj) n List.mem_cons_self he
  rw [nextSibling?, hp, Option.bind_eq_bind, Option.bind_some, h]
  dsimp only
  rw [hplace, Option.bind_eq_bind, Option.bind_some, List.getElem?_append_right (Nat.le_succ _),
    Nat.succ_sub (Nat.le_refl _), Nat.sub_self, List.getElem?_cons_succ,
    List.head?_eq_getElem?]

/-- A list of children is no longer than the document has nodes. -/
theorem WellFormed.length_children_le (hd : d.WellFormed) (p : NodeId) :
    (d.children p).length ≤ d.size := by
  have hinj : Function.Injective NodeId.index := fun _ _ h => NodeId.ext h
  have hsub : (d.children p).map NodeId.index ⊆ List.range d.size := by
    intro i hi
    obtain ⟨c, hc, rfl⟩ := List.mem_map.mp hi
    exact List.mem_range.mpr (known_of_parent? ((hd.linked p c).mp hc))
  have hle := (List.subperm_of_subset ((hd.nodup p).map hinj) hsub).length_le
  rwa [List.length_map, List.length_range] at hle

/-! ## Nodes taken out of a list -/

/-- `d'` is `d` where the nodes `gone` have lost their parent and `kept` is the list of `p`. -/
def Cropped (p : NodeId) (kept gone : List NodeId) (d d' : Document κ) : Prop :=
  Relinked d d' (fun x => if x ∈ gone then none else d.parent? x)
    (Function.update d.children p kept)

theorem Removed.cropped (r : Removed n d d') (hd : d.WellFormed)
    (h : d.children p = before ++ n :: after) : Cropped p (before ++ after) [n] d d' := by
  have hp := hd.parent?_of_place h
  have hnodup := hd.nodup p
  rw [h, List.nodup_middle, List.nodup_cons] at hnodup
  have hrest : (before ++ n :: after).filter (· ≠ n) = before ++ after := by
    rw [List.filter_append, List.filter_cons_of_neg (by simp), ← List.filter_append,
      List.filter_eq_self]
    intro x hx
    rw [decide_eq_true_iff]
    rintro rfl
    exact hnodup.1 hx
  refine Relinked.congr r (fun x => ?_) fun q => ?_
  · rw [Function.update_apply]
    exact if_congr List.mem_singleton rfl rfl
  · rw [Function.update_apply]
    by_cases hq : q = p
    · rw [if_pos hq, hq, h, hrest]
    · rw [if_neg hq, hd.filter_children]
      rw [hp]
      exact fun he => hq (Option.some.inj he).symm

theorem Cropped.trans {kept kept' gone gone' : List NodeId} (h : Cropped p kept gone d d₁)
    (h' : Cropped p kept' gone' d₁ d') : Cropped p kept' (gone ++ gone') d d' := by
  refine (Relinked.trans h h').congr (fun x => ?_) fun q => ?_
  · rw [h.parent?_eq]
    by_cases hx : x ∈ gone <;> simp [hx]
  · rw [funext h.children_eq, Function.update_idem]

/-! ## What is left -/

/-- The children of `p` from place `k` on have been taken out of their list, and nothing else has
happened. -/
structure CutAt (p : NodeId) (k : Nat) (d d' : Document κ) : Prop where
  /-- The first `k` children are left in their order, and of `p` all the rest. -/
  parent : d'.node? p = (d.node? p).map fun m => { m with children := m.children.take k }
  /-- A node that was taken out keeps all but its parent. -/
  removed : ∀ c ∈ (d.children p).drop k, d'.node? c = (d.node? c).map fun m =>
    { m with parent := none }
  others : ∀ x, x ≠ p → x ∉ (d.children p).drop k → d'.node? x = d.node? x
  bindings : d'.lastBinding = d.lastBinding

/-- The node `n` and the siblings after it have been taken out of their parent, if they have one. -/
structure Cropping (n : NodeId) (d d' : Document κ) : Prop where
  detached : d.parent? n = none → d' = d
  placed : ∀ p, d.parent? n = some p → n ∈ d.children p
  cut : ∀ p k, (d.children p)[k]? = some n → CutAt p k d d'

theorem Cropped.cutAt (r : Cropped p before after d d') (hd : d.WellFormed)
    (h : d.children p = before ++ after) (hbindings : d'.lastBinding = d.lastBinding) :
    CutAt p before.length d d' where
  parent := by
    have hp : p ∉ after := by
      intro hp
      refine hd.acyclic p (.single ((hd.linked p p).mp ?_))
      rw [h]
      exact List.mem_append_right _ hp
    rw [r.nodes, if_neg hp, Function.update_self]
    refine Option.map_congr fun m hm => ?_
    rw [parent?_of_node? hm, ← children_of_node? hm, h, List.take_left]
  removed c hc := by
    rw [h, List.drop_left] at hc
    have hp : d.parent? c = some p := by
      rw [← hd.linked, h]
      exact List.mem_append_right _ hc
    have hne : c ≠ p := by
      rintro rfl
      exact hd.acyclic c (.single hp)
    rw [r.nodes, if_pos hc, Function.update_of_ne hne]
    refine Option.map_congr fun m hm => ?_
    rw [children_of_node? hm]
  others x hx hgone := by
    rw [h, List.drop_left] at hgone
    exact r.node?_eq (if_neg hgone) (Function.update_of_ne hx _ _)
  bindings := hbindings

/-- A node stands at one place of one list only. -/
theorem Cropped.cropping (r : Cropped p before (n :: after) d d') (hd : d.WellFormed)
    (h : d.children p = before ++ n :: after) (hbindings : d'.lastBinding = d.lastBinding) :
    Cropping n d d' := by
  have hlast (q : NodeId) : n ∈ d.children q ↔ d.parent? n = some q := hd.linked q n
  have hp := hd.parent?_of_place h
  refine ⟨fun hnone => ?_, fun q => (hlast q).mpr, fun q k hk => ?_⟩
  · rw [hp] at hnone
    cases hnone
  · have hq : d.parent? n = some q := (hlast q).mp (List.mem_of_getElem? hk)
    cases hp.symm.trans hq
    have hplace : (d.children p)[before.length]? = some n := by
      rw [h, List.getElem?_append_right (Nat.le_refl _), Nat.sub_self, List.getElem?_cons_zero]
    have hlt : before.length < (d.children p).length := (List.getElem?_eq_some_iff.mp hplace).1
    rw [← (List.getElem?_inj hlt (hd.nodup p)).mp (hplace.trans hk.symm)]
    exact r.cutAt hd h hbindings

/-! ## Bindings -/

theorem lastBinding_of_remove (h : remove n d = .ok () d') : d'.lastBinding = d.lastBinding := by
  have hleads := attendance_strokes.remove n d
  rw [Step.Ends, h] at hleads
  exact congrArg Prod.snd hleads

/-! ## Nodes without parent -/

/-- A document is its nodes and the number of its last binding. -/
theorem eq_of_node? (hnodes : ∀ id, d'.node? id = d.node? id)
    (hbindings : d'.lastBinding = d.lastBinding) : d' = d := by
  obtain ⟨nodes, lastBinding⟩ := d
  obtain ⟨nodes', lastBinding'⟩ := d'
  have hn : nodes' = nodes := Array.ext_getElem? fun i => hnodes ⟨i⟩
  have hb : lastBinding' = lastBinding := hbindings
  rw [hn, hb]

/-- Taking out a node that has no parent changes nothing. -/
theorem remove_of_detached (hd : d.WellFormed) (hn : d.Known n) (hp : d.parent? n = none) :
    remove n d = .ok () d := by
  obtain ⟨d', h, r⟩ := remove_of_known hd hn
  have hnodes (id : NodeId) : d'.node? id = d.node? id := by
    refine Relinked.node?_eq r ?_ (hd.filter_children ?_)
    · rw [Function.update_apply]
      split
      · rename_i hid
        rw [hid, hp]
      · rfl
    · rw [hp]
      exact nofun
  rw [h, eq_of_node? hnodes (lastBinding_of_remove h)]

end TreeEdit.Document
