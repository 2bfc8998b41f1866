import TreeEdit.Proofs.Document.Relinking

/-!
# How calls put nodes in the place of others

Replacing a node takes the new node out of its former place first, so the list that the old node
stands in may be shorter by then. Replacing what an element contains takes all its children out at
once, and adds a text as the only child unless the text is empty.
-/

namespace TreeEdit.Document

variable {κ : Type} {d d' : Document κ} {n p old new : NodeId}

/-! ## Adding a node to the store -/

/-- `d'` is `d` with one more node, which has neither parent nor children. -/
def Allocated (content : Content) (d d' : Document κ) : Prop :=
  ∀ id, d'.node? id = if ⟨d.size⟩ = id then some (.detached content) else d.node? id

namespace Allocated

variable {content : Content}

theorem unknown_new (d : Document κ) : ¬ d.Known ⟨d.size⟩ :=
  Nat.lt_irrefl d.size

theorem node?_of_known (h : Allocated content d d') {id : NodeId} (hid : d.Known id) :
    d'.node? id = d.node? id := by
  rw [h id, if_neg]
  rintro rfl
  exact unknown_new d hid

theorem known_iff (h : Allocated content d d') {id : NodeId} :
    d'.Known id ↔ id = ⟨d.size⟩ ∨ d.Known id := by
  rw [Document.known_iff, Document.known_iff, h id]
  by_cases hid : (⟨d.size⟩ : NodeId) = id
  · simp [hid]
  · simp [hid, Ne.symm hid]

theorem size_eq (h : Allocated content d d') : d'.size = d.size + 1 := by
  have h₁ : d'.Known ⟨d.size⟩ ↔ _ := h.known_iff
  have h₂ : d'.Known ⟨d'.size⟩ ↔ _ := h.known_iff
  have h₃ : d'.Known ⟨d.size + 1⟩ ↔ _ := h.known_iff
  simp only [Known, NodeId.mk.injEq] at h₁ h₂ h₃
  omega

theorem parent?_eq (h : Allocated content d d') (id : NodeId) : d'.parent? id = d.parent? id := by
  rw [parent?, h id]
  split
  · rename_i hid
    rw [← hid, parent?_of_unknown (unknown_new d)]
    rfl
  · rfl

theorem children_eq (h : Allocated content d d') (id : NodeId) :
    d'.children id = d.children id := by
  rw [children, h id]
  split
  · rename_i hid
    rw [← hid, children_of_unknown (unknown_new d)]
    rfl
  · rfl

theorem tag?_of_known (h : Allocated content d d') {id : NodeId} (hid : d.Known id) :
    d'.tag? id = d.tag? id := by
  rw [tag?, tag?, h.node?_of_known hid]

theorem wellFormed (h : Allocated content d d') (hd : d.WellFormed) : d'.WellFormed :=
  hd.of_same_links h.parent?_eq h.children_eq fun id hid => by
    rwa [h.tag?_of_known (known_of_tag? hid)]

end Allocated

theorem allocate_eq (content : Content) (d : Document κ) :
    ∃ d', allocate content d = .ok ⟨d.size⟩ d' ∧ Allocated content d d' :=
  ⟨_, rfl, node?_of_allocate rfl⟩

/-! ## Replacing a node -/

theorem replace_of_unknown (h : ¬ d.Known old) (new : NodeId) :
    replace old new d = .error (.unknownNode old.index) d :=
  Step.bind_error (look_of_unknown h)

/-- A node without a place leaves none to another one. -/
theorem replace_of_detached (hk : d.Known old) (h : d.parent? old = none) (new : NodeId) :
    replace old new d = .ok () d := by
  obtain ⟨m, hm⟩ := known_iff.mp hk
  rw [parent?_of_node? hm] at h
  rw [replace, Step.bind_ok (look_of_node? hm), h]
  rfl

theorem replace_self (h : d.parent? old = some p) : replace old old d = .ok () d := by
  obtain ⟨m, hm⟩ := known_iff.mp (known_of_parent? h)
  rw [parent?_of_node? hm] at h
  rw [replace, Step.bind_ok (look_of_node? hm), h]
  dsimp only
  rw [if_pos rfl]
  rfl

/-- After the checks, replacing takes the new node out, and then looks for the place of the old
one. -/
theorem replace_of_ne (h : d.parent? old = some p) (hne : old ≠ new) :
    replace old new d
      = if d.isInclusiveAncestor new p then .error .replaceCycle d
        else ((do
          remove new
          match (← look p).children.idxOf? old with
          | none => throw .replaceIncoherent
          | some place =>
            changeChildren p (·.set place new)
            setParent old none
            setParent new (some p)) : Change κ Unit) d := by
  obtain ⟨m, hm⟩ := known_iff.mp (known_of_parent? h)
  rw [parent?_of_node? hm] at h
  rw [replace, Step.bind_ok (look_of_node? hm), h]
  dsimp only
  rw [if_neg hne, Step.get_bind]
  split <;> rfl

/-- `d'` is `d` with `new` in the place that `old` had under `p`. -/
def Replaced (p old new : NodeId) (d d' : Document κ) : Prop :=
  ∃ before after, (d.children p).filter (· ≠ new) = before ++ old :: after ∧
    Relinked d d' (Function.update (Function.update d.parent? old none) new (some p))
      (Function.update (fun q => (d.children q).filter (· ≠ new)) p (before ++ new :: after))

/-- Writing to the place of an element of a list. -/
theorem set_idxOf? {l : List NodeId} {place : Nat} (h : l.idxOf? old = some place) (new : NodeId) :
    ∃ before after, l = before ++ old :: after ∧ l.set place new = before ++ new :: after := by
  obtain ⟨hlt, hold, _⟩ := List.idxOf?_eq_some_iff.mp h
  refine ⟨l.take place, l.drop (place + 1), ?_, ?_⟩
  · rw [← hold, List.getElem_cons_drop, List.take_append_drop]
  · rw [List.set_eq_take_append_cons_drop, if_pos hlt]

theorem replace_of_within (hd : d.WellFormed) (h : d.parent? old = some p) (hne : old ≠ new)
    (hpn : d.Within p new) : replace old new d = .error .replaceCycle d := by
  rw [replace_of_ne h hne, if_pos (hd.isInclusiveAncestor_iff.mpr hpn)]

theorem replace_of_unknown_new (hd : d.WellFormed) (h : d.parent? old = some p)
    (hn : ¬ d.Known new) : replace old new d = .error (.unknownNode new.index) d := by
  have hne : old ≠ new := by
    rintro rfl
    exact hn (known_of_parent? h)
  have hpn : ¬ d.Within p new := fun hpn => hn (hd.known_of_within hpn (hd.known_parent h))
  rw [replace_of_ne h hne, if_neg (mt hd.isInclusiveAncestor_iff.mp hpn)]
  exact Step.bind_error (remove_of_unknown hn)

/-- The place of the old node is always found. -/
theorem replace_of_known (hd : d.WellFormed) (h : d.parent? old = some p) (hne : old ≠ new)
    (hn : d.Known new) (hpn : ¬ d.Within p new) :
    ∃ d', replace old new d = .ok () d' ∧ Replaced p old new d d' := by
  obtain ⟨d₁, h₁, r₁⟩ := remove_of_known hd hn
  have hp₁ : d₁.Known p := r₁.known_iff.mpr (hd.known_parent h)
  obtain ⟨m, hm⟩ := known_iff.mp hp₁
  have hch : m.children = (d.children p).filter (· ≠ new) := by
    rw [← children_of_node? hm, r₁.children_eq]
  -- taking the new node out has not taken the old one out
  have hmem : old ∈ m.children := by
    rw [hch, List.mem_filter]
    exact ⟨(hd.linked p old).mpr h, decide_eq_true hne⟩
  obtain ⟨place, hplace⟩ : ∃ place, m.children.idxOf? old = some place := by
    rw [← Option.ne_none_iff_exists', Ne, List.idxOf?_eq_none_iff, not_not]
    exact hmem
  obtain ⟨before, after, hl, hset⟩ := set_idxOf? hplace new
  obtain ⟨d₂, h₂, r₂⟩ := changeChildren_of_known hp₁ (·.set place new)
  have hold : d₂.Known old := r₂.known_iff.mpr (r₁.known_iff.mpr (known_of_parent? h))
  obtain ⟨d₃, h₃, r₃⟩ := setParent_of_known hold none
  have hnew : d₃.Known new := r₃.known_iff.mpr (r₂.known_iff.mpr (r₁.known_iff.mpr hn))
  obtain ⟨d₄, h₄, r₄⟩ := setParent_of_known hnew (some p)
  refine ⟨d₄, ?_, before, after, hch ▸ hl, ?_⟩
  · rw [replace_of_ne h hne, if_neg (mt hd.isInclusiveAncestor_iff.mp hpn), Step.bind_ok h₁,
      Step.bind_ok (look_of_node? hm), hplace]
    dsimp only
    rw [Step.bind_ok h₂, Step.bind_ok h₃]
    exact h₄
  · refine (((r₁.trans r₂).trans r₃).trans r₄).congr (fun q => ?_) fun q => ?_
    · rw [funext r₃.parent?_eq, funext r₂.parent?_eq, funext r₁.parent?_eq,
        Function.update_comm hne.symm none none d.parent?, Function.update_idem]
    · rw [r₃.children_eq, r₂.children_eq, children_of_node? hm, hset, funext r₁.children_eq]

theorem Replaced.linksUpTo (r : Replaced p old new d d') : LinksUpTo (some (new, p)) d d' := by
  obtain ⟨_, _, _, r⟩ := r
  intro x y hxy
  rw [r.parent?_eq, Function.update_apply, Function.update_apply] at hxy
  split at hxy
  · rename_i hx
    cases hxy
    exact .inr (by rw [hx])
  · split at hxy
    · cases hxy
    · exact .inl hxy

theorem Replaced.wellFormed (r : Replaced p old new d d') (hd : d.WellFormed)
    (h : d.parent? old = some p) (hpn : ¬ d.Within p new) : d'.WellFormed := by
  have hlinks := r.linksUpTo
  obtain ⟨before, after, hl, r⟩ := r
  have hnd : (before ++ old :: after).Nodup := hl ▸ (hd.nodup p).filter _
  have hnew : new ∉ before ++ old :: after := by
    rw [← hl, List.mem_filter]
    simp
  -- the list of `p` has `new` where it had `old`, and is otherwise the same
  have hmem (x : NodeId) : x ∈ before ++ new :: after
      ↔ x = new ∨ x ≠ old ∧ d.parent? x = some p := by
    have hx : x ∈ before ++ old :: after ↔ d.parent? x = some p ∧ x ≠ new := by
      rw [← hl, List.mem_filter, hd.linked, decide_eq_true_iff]
    have hold : x ∈ before ++ after → x ≠ old := by
      rintro hm rfl
      exact (List.nodup_cons.mp (List.nodup_middle.mp hnd)).1 hm
    simp only [List.mem_append, List.mem_cons] at hx hold hnew ⊢
    grind
  refine r.wellFormed (fun q => ?_) (fun q x => ?_) (fun x y hxy => ?_)
    (hlinks.acyclic hd fun c' p' he => ?_)
  · rw [Function.update_apply]
    split
    · rw [List.nodup_middle, List.nodup_cons] at hnd ⊢
      simp only [List.mem_append, List.mem_cons] at hnew ⊢
      exact ⟨by tauto, hnd.2⟩
    · exact (hd.nodup q).filter _
  · have hlink := hd.linked q x
    rw [Function.update_apply, Function.update_apply, Function.update_apply]
    by_cases hq : q = p
    · subst hq
      rw [if_pos rfl, hmem]
      by_cases hx : x = new
      · simp [hx]
      · by_cases hxo : x = old <;> simp [hx, hxo]
    · rw [if_neg hq, List.mem_filter, hlink, decide_eq_true_iff]
      by_cases hx : x = new
      · simp [hx, Ne.symm hq]
      · by_cases hxo : x = old
        · subst hxo
          simp [hx, h, Ne.symm hq]
        · simp [hx, hxo]
  · rw [← r.parent?_eq] at hxy
    rcases hlinks x y hxy with hold | hnew
    · exact hd.bearing x y hold
    · cases hnew
      exact hd.bearing old p h
  · cases he
    exact hpn

/-! ## Replacing what a node contains -/

theorem setText_of_unknown (h : ¬ d.Known n) (text : String) :
    setText n text d = .error (.unknownNode n.index) d :=
  Step.bind_error (look_of_unknown h)

theorem setText_of_text (hk : d.Known n) (hn : d.tag? n = none) (text : String) :
    setText n text d = change n (fun m => { m with content := .text text }) d := by
  obtain ⟨m, hm⟩ := known_iff.mp hk
  rw [setText, Step.bind_ok (look_of_node? hm)]
  cases hc : m.content with
  | text t => rfl
  | element tag attributes properties =>
    rw [tag?, hm, Option.map_some, hc] at hn
    cases hn

theorem orphan_of_known (l : List NodeId) (hl : ∀ x ∈ l, d.Known x) :
    ∃ d', l.forM (fun c => setParent c none) d = .ok () d' ∧
      Relinked d d' (fun x => if x ∈ l then none else d.parent? x) d.children := by
  -- on the children, each of which is still there after those before it
  induction l generalizing d with
  | nil => exact ⟨d, rfl, (Relinked.refl d).congr (fun x => if_neg List.not_mem_nil) fun _ => rfl⟩
  | cons c l ih =>
    obtain ⟨d₁, h₁, r₁⟩ := setParent_of_known (hl c List.mem_cons_self) none
    obtain ⟨d₂, h₂, r₂⟩ :=
      ih (d := d₁) fun x hx => r₁.known_iff.mpr (hl x (List.mem_cons_of_mem c hx))
    refine ⟨d₂, (Step.bind_ok h₁).trans h₂, (r₁.trans r₂).congr (fun x => ?_) fun x => ?_⟩
    · rw [r₁.parent?_eq, Function.update_apply]
      by_cases hx : x = c <;> simp [hx]
    · rw [r₁.children_eq]

/-- `d'` is `d` with all children of `n` taken out. -/
def Emptied (n : NodeId) (d d' : Document κ) : Prop :=
  Relinked d d' (fun x => if d.parent? x = some n then none else d.parent? x)
    (Function.update d.children n [])

theorem Emptied.linksUpTo (r : Emptied n d d') : LinksUpTo none d d' := by
  intro x y hxy
  rw [r.parent?_eq] at hxy
  split at hxy
  · cases hxy
  · exact .inl hxy

theorem Emptied.wellFormed (r : Emptied n d d') (hd : d.WellFormed) : d'.WellFormed := by
  refine Relinked.wellFormed r (fun p => ?_) (fun p x => ?_) (fun x y hxy => ?_)
    (r.linksUpTo.acyclic hd nofun)
  · rw [Function.update_apply]
    split
    · exact List.nodup_nil
    · exact hd.nodup p
  · have hl := hd.linked p x
    rw [Function.update_apply]
    by_cases hp : p = n
    · subst hp
      by_cases hx : d.parent? x = some p <;> simp [hx]
    · by_cases hx : d.parent? x = some n
      · simp [hp, hx, hl, Ne.symm hp]
      · simp [hp, hx, hl]
  · rw [← r.parent?_eq] at hxy
    rcases r.linksUpTo x y hxy with hold | hnew
    · exact hd.bearing x y hold
    · cases hnew

/-- Emptying an element goes through; then a text that is not empty is added. -/
theorem setText_of_element (hd : d.WellFormed) (hn : (d.tag? n).isSome) :
    ∃ d', Emptied n d d' ∧ ∀ text, setText n text d
      = ((if text ≠ "" then do append n (← createText text) else return) : Change κ Unit) d' := by
  obtain ⟨m, tag, attributes, properties, hm, hc⟩ := tag?_isSome_iff.mp hn
  obtain ⟨d₁, h₁, r₁⟩ := changeChildren_of_known (known_of_node? hm) fun _ => []
  have hch (x : NodeId) : x ∈ m.children ↔ d.parent? x = some n := by
    rw [← children_of_node? hm, hd.linked]
  obtain ⟨d₂, h₂, r₂⟩ := orphan_of_known (d := d₁) m.children fun x hx =>
    r₁.known_iff.mpr (known_of_parent? ((hch x).mp hx))
  refine ⟨d₂, (r₁.trans r₂).congr (fun x => ?_) fun x => ?_, fun text => ?_⟩
  · rw [r₁.parent?_eq]
    exact if_congr (hch x).symm rfl rfl
  · rw [r₁.children_eq]
  · rw [setText, Step.bind_ok (look_of_node? hm), hc]
    dsimp only
    rw [Step.bind_ok h₁, Step.bind_ok h₂]

theorem setText_empty (hd : d.WellFormed) (hn : (d.tag? n).isSome) :
    ∃ d', setText n "" d = .ok () d' ∧ Emptied n d d' := by
  obtain ⟨d', r, h⟩ := setText_of_element hd hn
  exact ⟨d', h "", r⟩

/-- The new text is the only child. -/
theorem setText_nonempty (hd : d.WellFormed) (hn : (d.tag? n).isSome) {text : String}
    (ht : text ≠ "") :
    ∃ d₁ d₂ d', setText n text d = .ok () d' ∧ Emptied n d d₁ ∧ Allocated (.text text) d₁ d₂ ∧
      Appended n ⟨d.size⟩ d₂ d' ∧ ¬ d₂.Within n ⟨d.size⟩ := by
  obtain ⟨d₁, r₁, h₁⟩ := setText_of_element hd hn
  obtain ⟨d₂, h₂, r₂⟩ := allocate_eq (.text text) d₁
  rw [r₁.size_eq] at h₂
  have hd₂ : d₂.WellFormed := r₂.wellFormed (r₁.wellFormed hd)
  have hk : d₁.Known n := r₁.known_iff.mpr (known_of_tag? hn)
  have hn₂ : (d₂.tag? n).isSome := by
    rwa [r₂.tag?_of_known hk, r₁.tag?_eq]
  have hnew : d₂.node? ⟨d.size⟩ = some (.detached (.text text)) := by
    rw [r₂, if_pos (by rw [r₁.size_eq])]
  -- the new text bears nothing, so nothing else is within it
  have hout : ¬ d₂.Within n ⟨d.size⟩ := by
    intro hw
    have hleaf : d₂.tag? ⟨d.size⟩ = none := by
      rw [tag?, hnew]
      rfl
    rw [← hd₂.within_leaf hleaf hw, hleaf] at hn₂
    cases hn₂
  obtain ⟨d₃, h₃, r₃⟩ := append_of_known hd₂ hn₂ (known_of_node? hnew) hout
  refine ⟨d₁, d₂, d₃, ?_, r₁, r₂, r₃, hout⟩
  rw [h₁, if_pos ht]
  exact (Step.bind_ok h₂).trans h₃

end TreeEdit.Document
