import TreeEdit.Proofs.Document.Cropping
import TreeEdit.Proofs.Document.Reachable
import TreeEdit.Proofs.Machine.Congruence

/-!
# Removing a node and the siblings after it

The loop goes from sibling to sibling while the list that they stand in becomes shorter. `Clears`
is that loop with nothing that bounds its rounds. In a forest it comes to an end, with the children
in front of the node left in their order (`clears_of_children`), and as `removeFrom` allows as many
rounds as the document has nodes it does the same. So the instruction always succeeds, and crops the
list (`exec_removeSelfAndNextSiblings`).
-/

namespace TreeEdit.Machine

open Document (Cropped Cropping host)

variable {δ ν β κ τ : Type} {wrap : ListenerId → κ}

/-! ## The loop without a bound -/

/-- Starting with `node`, nodes are removed until one has no next sibling, which is looked up
before its removal. That leads from `m` to `m'`. -/
inductive Clears (H : Host δ ν β) : ν → Machine δ ν β τ → Machine δ ν β τ → Prop
  | last {node : ν} {m m' : Machine δ ν β τ} (hnext : H.nextSibling m.doc node = none)
      (hcall : call H (.remove node) m = .ok () m') : Clears H node m m'
  | next {node sibling : ν} {m m₁ m' : Machine δ ν β τ}
      (hnext : H.nextSibling m.doc node = some sibling)
      (hcall : call H (.remove node) m = .ok () m₁) (rest : Clears H sibling m₁ m') :
      Clears H node m m'

/-- The loop comes to one end at most. -/
theorem Clears.unique {H : Host δ ν β} {node : ν} {m m₁ m₂ : Machine δ ν β τ}
    (h : Clears H node m m₁) (h' : Clears H node m m₂) : m₁ = m₂ := by
  induction h with
  | last hnext hcall =>
    cases h' with
    | last _ hcall' =>
      cases hcall.symm.trans hcall'
      rfl
    | next hnext' _ _ => cases hnext.symm.trans hnext'
  | next hnext hcall _ ih =>
    cases h' with
    | last hnext' _ => cases hnext.symm.trans hnext'
    | next hnext' hcall' rest' =>
      cases hnext.symm.trans hnext'
      cases hcall.symm.trans hcall'
      exact ih rest'

theorem Clears.iff_eq {H : Host δ ν β} {node : ν} {m m₁ m' : Machine δ ν β τ}
    (h : Clears H node m m₁) : Clears H node m m' ↔ m' = m₁ := by
  refine ⟨fun h' => h'.unique h, fun he => ?_⟩
  rw [he]
  exact h

variable {m : Machine (Document κ) NodeId Nat τ} {n p : NodeId} {before after : List NodeId}

/-- In a list of children the loop ends with the list. As many rounds are enough as there are nodes
in it from `n` on. -/
theorem clears_of_children (hd : m.doc.WellFormed) (h : m.doc.children p = before ++ n :: after)
    {steps : Nat} (hsteps : after.length < steps) :
    ∃ d', removeFrom (host wrap) steps n m = .ok () { m with doc := d' } ∧
      Clears (host wrap) n m { m with doc := d' } ∧ Cropped p before (n :: after) m.doc d' ∧
      d'.lastBinding = m.doc.lastBinding := by
  -- on the siblings that are left, which the list of `p` ends with in every round
  induction after generalizing n m steps with
  | nil =>
    obtain ⟨steps, rfl⟩ := Nat.exists_eq_add_one.mpr (Nat.zero_lt_of_lt hsteps)
    have hn := Document.known_of_parent? (hd.parent?_of_place h)
    obtain ⟨d', hremove, r⟩ := Document.remove_of_known hd hn
    have hcall : call (host wrap) (.remove n) m = .ok () { m with doc := d' } := call_of_ok hremove
    have hnext : (host wrap).nextSibling m.doc n = none := hd.nextSibling?_eq h
    have hcropped := r.cropped hd h
    rw [List.append_nil] at hcropped
    refine ⟨d', ?_, .last hnext hcall, hcropped, Document.lastBinding_of_remove hremove⟩
    rw [removeFrom_succ, Step.get_bind, Step.bind_ok hcall, hnext]
    rfl
  | cons sibling after ih =>
    obtain ⟨steps, rfl⟩ := Nat.exists_eq_add_one.mpr (Nat.zero_lt_of_lt hsteps)
    have hn := Document.known_of_parent? (hd.parent?_of_place h)
    obtain ⟨d₁, hremove, r⟩ := Document.remove_of_known hd hn
    have hcall : call (host wrap) (.remove n) m = .ok () { m with doc := d₁ } := call_of_ok hremove
    have hnext : (host wrap).nextSibling m.doc n = some sibling := hd.nextSibling?_eq h
    have hcropped := r.cropped hd h
    have hlist : d₁.children p = before ++ sibling :: after := by
      rw [hcropped.children_eq, Function.update_self]
    obtain ⟨d', hrest, hclears, hcropped', hbindings⟩ := ih (m := { m with doc := d₁ })
      (r.wellFormed hd) hlist (Nat.lt_of_succ_lt_succ hsteps)
    refine ⟨d', ?_, .next hnext hcall hclears, hcropped.trans hcropped',
      hbindings.trans (Document.lastBinding_of_remove hremove)⟩
    rw [removeFrom_succ, Step.get_bind, Step.bind_ok hcall, hnext]
    exact hrest

/-- Of a node without parent nothing is left to remove. -/
theorem clears_of_detached (hd : m.doc.WellFormed) (hn : m.doc.Known n)
    (hp : m.doc.parent? n = none) (steps : Nat) :
    removeFrom (host wrap) (steps + 1) n m = .ok () m ∧ Clears (host wrap) n m m := by
  have hcall : call (host wrap) (.remove n) m = .ok () m :=
    call_of_ok (Document.remove_of_detached hd hn hp)
  have hnext : (host wrap).nextSibling m.doc n = none := by
    show m.doc.nextSibling? n = none
    rw [Document.nextSibling?, hp]
    rfl
  refine ⟨?_, .last hnext hcall⟩
  rw [removeFrom_succ, Step.get_bind, Step.bind_ok hcall, hnext]
  rfl

/-! ## The instruction -/

/-- With a node of the document on top of the stack, the instruction succeeds and takes it off. It
leaves what the loop without a bound leaves, which therefore ends, and ends there only. That crops
the list of children that the node stands in. -/
theorem exec_removeSelfAndNextSiblings (hd : m.doc.Reachable) {st : List (Option NodeId)}
    (hst : m.stack.slots = some n :: st) (hn : m.doc.Known n) (mem : Binary.Bytes) :
    ∃ d', exec (host wrap) mem .removeSelfAndNextSiblings m
        = .ok () { m.withSlots st with doc := d' } ∧
      (∀ m', Clears (host wrap) n (m.withSlots st) m' ↔ m' = { m.withSlots st with doc := d' }) ∧
      Cropping n m.doc d' := by
  have hwf := hd.wellFormed
  rw [exec, Step.bind_ok (popNode_of_slots hst _), Step.get_bind]
  cases hp : m.doc.parent? n with
  | none =>
    obtain ⟨hremove, hclears⟩ :=
      clears_of_detached (m := m.withSlots st) hwf hn hp m.doc.size
    refine ⟨m.doc, hremove, fun _ => hclears.iff_eq, fun _ => rfl, fun p h => ?_,
      fun p k hk => ?_⟩
    · cases hp.symm.trans h
    · cases hp.symm.trans ((hwf.linked p n).mp (List.mem_of_getElem? hk))
  | some p =>
    obtain ⟨before, after, hlist⟩ := List.append_of_mem ((hwf.linked p n).mpr hp)
    have hsteps : after.length < m.doc.size + 1 := by
      have hle := hwf.length_children_le p
      rw [hlist, List.length_append, List.length_cons] at hle
      omega
    obtain ⟨d', hremove, hclears, hcropped, hbindings⟩ :=
      clears_of_children (m := m.withSlots st) hwf hlist hsteps
    exact ⟨d', hremove, fun _ => hclears.iff_eq, hcropped.cropping hwf hlist hbindings⟩

/-- A list with three elements, the second of which holds a text. -/
def threeItems : Document ListenerId :=
  Step.after (do
    Document.append ⟨0⟩ (← Document.createElement "li")
    Document.append ⟨0⟩ (← Document.createElement "li")
    Document.append ⟨2⟩ (← Document.createText "two")) (Document.withSeed "ul" "li")

/-- A machine that has the list and its second element on its stack. -/
def onSecondItem : Machine (Document ListenerId) NodeId Nat Unit :=
  (ofDoc threeItems none).withSlots [some ⟨2⟩, some ⟨0⟩]

/-- The first element is left, and the second one keeps its text. -/
theorem exec_removeSelfAndNextSiblings_onSecondItem :
    threeItems.Reachable ∧ onSecondItem.stack.slots = some ⟨2⟩ :: [some ⟨0⟩] ∧
      threeItems.Known ⟨2⟩ ∧
      ∃ d', exec (host id) [] .removeSelfAndNextSiblings onSecondItem
          = .ok () { onSecondItem.withSlots [some ⟨0⟩] with doc := d' } ∧
        Cropping ⟨2⟩ threeItems d' ∧ d'.children ⟨0⟩ = [⟨1⟩] ∧ d'.parent? ⟨3⟩ = none ∧
        d'.children ⟨2⟩ = [⟨4⟩] := by
  have hreach : threeItems.Reachable := by
    have h₁ := (Document.withSeed_reachable "ul" "li").perform id (.createElement "li")
    have h₂ := (h₁.perform id (.append ⟨0⟩ ⟨2⟩)).perform id (.createElement "li")
    have h₃ := (h₂.perform id (.append ⟨0⟩ ⟨3⟩)).perform id (.createText "two")
    exact h₃.perform id (.append ⟨2⟩ ⟨4⟩)
  have hknown : threeItems.Known ⟨2⟩ := by
    show 2 < threeItems.size
    decide
  have hst : onSecondItem.stack.slots = some ⟨2⟩ :: [some ⟨0⟩] := rfl
  obtain ⟨d', hexec, -, hcropping⟩ := exec_removeSelfAndNextSiblings hreach hst hknown []
  have hcut := hcropping.cut ⟨0⟩ 1 rfl
  refine ⟨hreach, hst, hknown, d', hexec, hcropping, ?_, ?_, ?_⟩
  · rw [Document.children, hcut.parent]
    rfl
  · rw [Document.parent?, hcut.removed ⟨3⟩ (by decide)]
    rfl
  · rw [Document.children, hcut.removed ⟨2⟩ (by decide)]
    rfl

end TreeEdit.Machine
