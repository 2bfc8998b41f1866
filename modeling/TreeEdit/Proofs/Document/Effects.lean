import TreeEdit.Document.Hosting
import TreeEdit.Proofs.Document.Replacement

/-!
# What calls to a document do

`perform_meets` says once what any call can do to a well-formed document. Either it is refused for
one of the reasons listed in `Refusal`, and the document stays as it was; or it is done, and its
`Effect` is bounded by the nodes that it names and by the one link up that it may make. Whatever
holds of documents throughout their lives is derived from this.
-/

namespace TreeEdit

/-! ## Names and links of a call -/

namespace HostCall

variable {ν β : Type} {k : Reply}

/-- The nodes that a call names. -/
def Names : HostCall ν β k → ν → Prop
  | .setText n _, id | .remove n, id | .setAttribute n _ _, id | .removeAttribute n _, id
  | .setProperty n _, id | .listen n _ _, id | .unlisten n _ _, id => id = n
  | .replace old new, id => id = old ∨ id = new
  | .append parent child, id => id = parent ∨ id = child
  | .createText _, _ | .createElement _, _ => False

end HostCall

/-- The tag of an element; nothing for a text. -/
def Content.tag? : Content → Option String
  | .element tag _ _ => some tag
  | .text _ => none

namespace Document

variable {κ : Type} {d d' : Document κ} {k : Reply}

/-- The link from a node up to its parent that a call may make. -/
def newLink (d : Document κ) : HostCall NodeId Nat k → Option (NodeId × NodeId)
  | .setText n _ => some (⟨d.size⟩, n)
  | .replace old new => (d.parent? old).map fun p => (new, p)
  | .append parent child => some (child, parent)
  | _ => none

/-! ## Effects -/

theorem tag?_eq_bind (d : Document κ) (id : NodeId) :
    d.tag? id = (d.node? id).bind (·.content.tag?) := by
  rw [tag?]
  cases d.node? id with
  | none => rfl
  | some n => cases hc : n.content <;> simp [hc, Content.tag?]

/-- `d'` is a forest that `d` may become when the nodes in `N` are worked on and the link `e` is
made. Nodes stay what they are. A node keeps everything but its children if neither it nor its
parent is worked on, and keeps these too if none of them is. -/
structure Effect (N : NodeId → Prop) (e : Option (NodeId × NodeId)) (d d' : Document κ) :
    Prop where
  wellFormed : d'.WellFormed
  size_le : d.size ≤ d'.size
  tag?_eq : ∀ id, d.Known id → d'.tag? id = d.tag? id
  links : LinksUpTo e d d'
  bystander : ∀ id, d.Known id → ¬ N id → (∀ p, d.parent? id = some p → ¬ N p) →
    ∃ cs, d'.node? id = (d.node? id).map fun n => { n with children := cs }
  frame : ∀ id, d.Known id → ¬ N id → (∀ p, d.parent? id = some p → ¬ N p) →
    (∀ c, d.parent? c = some id → ¬ N c) → d'.node? id = d.node? id

variable {N : NodeId → Prop} {e : Option (NodeId × NodeId)}

theorem Effect.known (h : Effect N e d d') {id : NodeId} (hid : d.Known id) : d'.Known id :=
  Nat.lt_of_lt_of_le hid h.size_le

theorem map_children_self (d : Document κ) (id : NodeId) :
    (d.node? id).map (fun n => { n with children := d.children id }) = d.node? id := by
  cases hn : d.node? id with
  | none => rfl
  | some n =>
    rw [children_of_node? hn]
    rfl

/-- Other links at the nodes worked on. -/
theorem Relinked.effect {P : NodeId → Option NodeId} {C : NodeId → List NodeId}
    (r : Relinked d d' P C) (wellFormed : d'.WellFormed) (links : LinksUpTo e d d')
    (hP : ∀ id, ¬ N id → (∀ p, d.parent? id = some p → ¬ N p) → P id = d.parent? id)
    (hC : ∀ id, ¬ N id → (∀ c, d.parent? c = some id → ¬ N c) → C id = d.children id) :
    Effect N e d d' where
  wellFormed := wellFormed
  size_le := r.size_eq.ge
  tag?_eq id _ := r.tag?_eq id
  links := links
  bystander id _ hid hp := by
    refine ⟨C id, ?_⟩
    rw [r.nodes, hP id hid hp]
    cases hn : d.node? id with
    | none => rfl
    | some n =>
      rw [parent?_of_node? hn]
      rfl
  frame id _ hid hp hc := r.node?_eq (hP id hid hp) (hC id hid hc)

/-- The same links everywhere, and the same node wherever no work is done. -/
theorem Effect.of_same_links (hd : d.WellFormed) (hp : ∀ id, d'.parent? id = d.parent? id)
    (hc : ∀ id, d'.children id = d.children id) (hs : d.size ≤ d'.size)
    (ht : ∀ id, d.Known id → d'.tag? id = d.tag? id)
    (hn : ∀ id, d.Known id → ¬ N id → d'.node? id = d.node? id) : Effect N e d d' where
  wellFormed := hd.of_same_links hp hc fun id hid => by rwa [ht id (known_of_tag? hid)]
  size_le := hs
  tag?_eq := ht
  links x y hxy := .inl (hp x ▸ hxy)
  bystander id hid hN _ := by
    refine ⟨d.children id, ?_⟩
    rw [hn id hid hN, map_children_self]
  frame id hid hN _ _ := hn id hid hN

theorem Effect.refl (hd : d.WellFormed) : Effect N e d d :=
  .of_same_links hd (fun _ => rfl) (fun _ => rfl) le_rfl (fun _ _ => rfl) fun _ _ _ => rfl

/-- Work that makes no link, and then work on the same nodes or on new ones. -/
theorem Effect.trans {d₁ : Document κ} {M : NodeId → Prop} (h : Effect N none d d₁)
    (h' : Effect M e d₁ d') (hd : d.WellFormed) (hM : ∀ id, d.Known id → M id → N id) :
    Effect N e d d' := by
  -- the links after the first work are old ones, so what the second must not touch was out of
  -- reach before
  have hlinks (x y : NodeId) (hxy : d₁.parent? x = some y) : d.parent? x = some y :=
    (h.links x y hxy).resolve_right nofun
  have hself {id : NodeId} (hid : d.Known id) (hN : ¬ N id) : ¬ M id := mt (hM id hid) hN
  have hup {id : NodeId} (hp : ∀ p, d.parent? id = some p → ¬ N p) (p : NodeId)
      (hid : d₁.parent? id = some p) : ¬ M p :=
    hself (hd.known_parent (hlinks id p hid)) (hp p (hlinks id p hid))
  refine ⟨h'.wellFormed, h.size_le.trans h'.size_le, fun id hid => ?_, fun x y hxy => ?_,
    fun id hid hN hp => ?_, fun id hid hN hp hc => ?_⟩
  · rw [h'.tag?_eq id (h.known hid), h.tag?_eq id hid]
  · exact (h'.links x y hxy).imp_left (hlinks x y)
  · obtain ⟨cs, hcs⟩ := h.bystander id hid hN hp
    obtain ⟨cs', hcs'⟩ := h'.bystander id (h.known hid) (hself hid hN) (hup hp)
    refine ⟨cs', ?_⟩
    rw [hcs', hcs, Option.map_map]
    rfl
  · have hdown (c : NodeId) (hcid : d₁.parent? c = some id) : ¬ M c :=
      hself (known_of_parent? (hlinks c id hcid)) (hc c (hlinks c id hcid))
    rw [h'.frame id (h.known hid) (hself hid hN) (hup hp) hdown, h.frame id hid hN hp hc]

theorem Allocated.effect {content : Content} (r : Allocated content d d') (hd : d.WellFormed) :
    Effect N e d d' :=
  .of_same_links hd r.parent?_eq r.children_eq (by rw [r.size_eq]; exact Nat.le_succ _)
    (fun _ hid => r.tag?_of_known hid) fun _ hid _ => r.node?_of_known hid

/-- Work on one node that leaves its links and its tag alone. -/
theorem change_effect (hd : d.WellFormed) {n : NodeId} {f : Node κ → Node κ} (hn : d.Known n)
    (hN : N n) (hf : ∀ m, (f m).parent = m.parent ∧ (f m).children = m.children)
    (ht : ∀ m, d.node? n = some m → (f m).content.tag? = m.content.tag?) :
    ∃ d', change n f d = .ok () d' ∧ Effect N e d d' := by
  have hok := change_of_known hn f
  have hnode := node?_of_change hok
  refine ⟨_, hok, .of_same_links hd (fun id => ?_) (fun id => ?_) ?_ (fun id _ => ?_)
    fun id _ hid => ?_⟩
  · rw [parent?, parent?, hnode]
    split
    · cases d.node? id with
      | none => rfl
      | some m => exact (hf m).1
    · rfl
  · rw [children, children, hnode]
    split
    · cases d.node? id with
      | none => rfl
      | some m => exact (hf m).2
    · rfl
  · exact (Array.size_modify ..).ge
  · rw [tag?_eq_bind, tag?_eq_bind, hnode]
    split
    · rename_i hid
      subst hid
      cases hm : d.node? n with
      | none => rfl
      | some m => exact ht m hm
    · rfl
  · rw [hnode, if_neg]
    rintro rfl
    exact hid hN

/-! ## Refusals -/

/-- Why a call is refused. -/
inductive Refusal (d : Document κ) : {k : Reply} → HostCall NodeId Nat k → HostError → Prop
  /-- It names a node that is not there. -/
  | unknown {k : Reply} {c : HostCall NodeId Nat k} {id : NodeId} (hc : c.Names id)
      (hid : ¬ d.Known id) : Refusal d c (.unknownNode id.index)
  | setAttributeOfText {n : NodeId} (name value : String) (hk : d.Known n) (hn : d.tag? n = none) :
      Refusal d (.setAttribute n name value) (.attributesOfText n.index)
  | removeAttributeOfText {n : NodeId} (name : String) (hk : d.Known n) (hn : d.tag? n = none) :
      Refusal d (.removeAttribute n name) (.attributesOfText n.index)
  | setPropertyOfText {n : NodeId} (property : Property) (hk : d.Known n)
      (hn : d.tag? n = none) : Refusal d (.setProperty n property) (.attributesOfText n.index)
  | childOfText {p : NodeId} (c : NodeId) (hk : d.Known p) (hp : d.tag? p = none) :
      Refusal d (.append p c) .childrenOfText
  | appendCycle {p c : NodeId} (h : d.Within p c) : Refusal d (.append p c) .appendCycle
  | replaceCycle {old new p : NodeId} (h : d.parent? old = some p) (hp : d.Within p new) :
      Refusal d (.replace old new) .replaceCycle

/-- What is claimed of the outcome of a call: its effect, or a reason with the nodes as they
were. -/
def Meets (d : Document κ) {α : Type} (x : Change κ α) (c : HostCall NodeId Nat k) : Prop :=
  Step.Ends x d (fun _ d' => Effect c.Names (d.newLink c) d d')
    fun e d' => d'.nodes = d.nodes ∧ Refusal d c e

variable {α : Type} {x : Change κ α} {c : HostCall NodeId Nat k}

theorem Meets.done {a : α} (h : x d = .ok a d') (he : Effect c.Names (d.newLink c) d d') :
    Meets d x c := by
  rw [Meets, Step.Ends, h]
  exact he

theorem Meets.refused {e : HostError} (h : x d = .error e d) (he : Refusal d c e) :
    Meets d x c := by
  rw [Meets, Step.Ends, h]
  exact ⟨rfl, he⟩

/-! ## Each call -/

theorem remove_meets (hd : d.WellFormed) (n : NodeId) :
    Meets d (remove n) (.remove n : HostCall NodeId Nat _) := by
  by_cases hn : d.Known n
  · obtain ⟨d', h, r⟩ := remove_of_known hd hn
    refine .done h (Relinked.effect r (r.wellFormed hd) r.linksUpTo (fun id hid _ => ?_)
      fun id _ hc => ?_)
    · exact Function.update_of_ne hid _ _
    · exact hd.filter_children fun h => hc n h rfl
  · exact .refused (remove_of_unknown hn) (.unknown rfl hn)

theorem Appended.effect {p c : NodeId} (r : Appended p c d d') (hd : d.WellFormed)
    (hp : (d.tag? p).isSome) (hw : ¬ d.Within p c) :
    Effect (fun id => id = p ∨ id = c) (some (c, p)) d d' := by
  refine Relinked.effect r (r.wellFormed hd hp hw) r.linksUpTo (fun id hid _ => ?_)
    fun id hid hch => ?_
  · exact Function.update_of_ne (fun he => hid (.inr he)) _ _
  · rw [Function.update_of_ne fun he => hid (.inl he)]
    exact hd.filter_children fun h => hch c h (.inr rfl)

theorem append_meets (hd : d.WellFormed) (p c : NodeId) :
    Meets d (append p c) (.append p c : HostCall NodeId Nat _) := by
  by_cases hk : d.Known p
  swap
  · exact .refused (append_of_unknown hk c) (.unknown (.inl rfl) hk)
  by_cases hp : (d.tag? p).isSome
  swap
  · rw [Option.not_isSome_iff_eq_none] at hp
    exact .refused (append_of_text hk hp c) (.childOfText c hk hp)
  by_cases hw : d.Within p c
  · exact .refused (append_of_within hd hp hw) (.appendCycle hw)
  by_cases hc : d.Known c
  swap
  · exact .refused (append_of_unknown_child hd hp hc) (.unknown (.inr rfl) hc)
  obtain ⟨d', h, r⟩ := append_of_known hd hp hc hw
  exact .done h (r.effect hd hp hw)

theorem replace_meets (hd : d.WellFormed) (old new : NodeId) :
    Meets d (replace old new) (.replace old new : HostCall NodeId Nat _) := by
  by_cases hk : d.Known old
  swap
  · exact .refused (replace_of_unknown hk new) (.unknown (.inl rfl) hk)
  cases hp : d.parent? old with
  | none => exact .done (replace_of_detached hk hp new) (.refl hd)
  | some p =>
    by_cases hne : old = new
    · subst hne
      exact .done (replace_self hp) (.refl hd)
    by_cases hw : d.Within p new
    · exact .refused (replace_of_within hd hp hne hw) (.replaceCycle hp hw)
    by_cases hn : d.Known new
    swap
    · exact .refused (replace_of_unknown_new hd hp hn) (.unknown (.inr rfl) hn)
    obtain ⟨d', h, r⟩ := replace_of_known hd hp hne hn hw
    have hlink : d.newLink (.replace old new : HostCall NodeId Nat _) = some (new, p) := by
      rw [newLink, hp]
      rfl
    refine .done h ?_
    obtain ⟨before, after, -, r'⟩ := id r
    refine r'.effect (r.wellFormed hd hp hw) (hlink ▸ r.linksUpTo) (fun id hid _ => ?_)
      fun id hid hch => ?_
    · rw [Function.update_of_ne fun he => hid (.inr he),
        Function.update_of_ne fun he => hid (.inl he)]
    · rw [Function.update_of_ne]
      · exact hd.filter_children fun h => hch new h (.inr rfl)
      · rintro rfl
        exact hch old hp (.inl rfl)

theorem Emptied.effect {n : NodeId} (r : Emptied n d d') (hd : d.WellFormed) (hN : N n) :
    Effect N none d d' := by
  refine Relinked.effect r (r.wellFormed hd) r.linksUpTo (fun id _ hp => ?_) fun id hid _ => ?_
  · exact if_neg fun h => hp n h hN
  · refine Function.update_of_ne ?_ _ _
    rintro rfl
    exact hid hN

theorem setText_meets (hd : d.WellFormed) (n : NodeId) (text : String) :
    Meets d (setText n text) (.setText n text : HostCall NodeId Nat _) := by
  by_cases hk : d.Known n
  swap
  · exact .refused (setText_of_unknown hk text) (.unknown rfl hk)
  cases hn : d.tag? n with
  | none =>
    obtain ⟨d', h, he⟩ := change_effect (N := (· = n)) (e := some (⟨d.size⟩, n))
      (f := fun m => { m with content := .text text }) hd hk rfl (fun _ => ⟨rfl, rfl⟩)
      fun m hm => by
        rw [tag?_eq_bind, hm, Option.bind_some] at hn
        exact hn.symm
    exact .done ((setText_of_text hk hn text).trans h) he
  | some tag =>
    have hn : (d.tag? n).isSome := by rw [hn]; rfl
    by_cases ht : text = ""
    · subst ht
      obtain ⟨d', h, r⟩ := setText_empty hd hn
      have he := r.effect (N := (· = n)) hd rfl
      exact .done h { he with links := fun x y hxy => (he.links x y hxy).imp_right nofun }
    · -- all children are taken out, then a text is made, then it is linked
      obtain ⟨d₁, d₂, d', h, r₁, r₂, r₃, hw⟩ := setText_nonempty hd hn ht
      have e₁ := r₁.effect (N := (· = n)) hd rfl
      have e₂ := r₂.effect (N := (· = n)) (e := none) e₁.wellFormed
      have hn₂ : (d₂.tag? n).isSome := by
        rwa [e₂.tag?_eq n (e₁.known hk), e₁.tag?_eq n hk]
      have e₁₂ := e₁.trans e₂ hd fun _ _ => id
      refine .done h (e₁₂.trans (r₃.effect e₂.wellFormed hn₂ hw) hd fun id hid h => ?_)
      rcases h with h | rfl
      · exact h
      · exact absurd hid (Allocated.unknown_new d)

theorem changeElement_meets (hd : d.WellFormed) {n : NodeId}
    (f : OrderedMap String String → Properties → OrderedMap String String × Properties)
    {c : HostCall NodeId Nat .done} (hN : c.Names n)
    (hc : d.Known n → d.tag? n = none → Refusal d c (.attributesOfText n.index)) :
    Meets d (changeElement n f) c := by
  by_cases hk : d.Known n
  swap
  · exact .refused (Step.bind_error (look_of_unknown hk)) (.unknown hN hk)
  obtain ⟨m, hm⟩ := known_iff.mp hk
  cases hcont : m.content with
  | text t =>
    have hn : d.tag? n = none := by
      rw [tag?_eq_bind, hm, Option.bind_some, hcont]
      rfl
    refine .refused ?_ (hc hk hn)
    rw [changeElement, Step.bind_ok (look_of_node? hm), hcont]
    rfl
  | element tag attributes properties =>
    obtain ⟨d', h, he⟩ := change_effect (N := c.Names) (e := d.newLink c)
      (f := fun m => { m with
        content := .element tag (f attributes properties).1 (f attributes properties).2 })
      hd hk hN (fun _ => ⟨rfl, rfl⟩) fun m' hm' => by
        cases hm.symm.trans hm'
        rw [hcont]
        rfl
    refine .done (a := ()) ?_ he
    rw [changeElement, Step.bind_ok (look_of_node? hm), hcont]
    exact h

theorem listen_meets (hd : d.WellFormed) (n : NodeId) (eventType : String) (callback : κ)
    (listener : ListenerId) :
    Meets d (listen n eventType callback)
      (.listen n eventType listener : HostCall NodeId Nat _) := by
  -- the number of the binding is used up first; no node looks at it
  let d₀ : Document κ := { d with lastBinding := d.lastBinding + 1 }
  have hd₀ : d₀.WellFormed := hd.of_same_links (fun _ => rfl) (fun _ => rfl) fun _ h => h
  by_cases hk : d₀.Known n
  · obtain ⟨d', h, he⟩ := change_effect (N := (· = n)) (e := none)
      (f := fun m => { m with handlers := m.handlers ++ [⟨eventType, d₀.lastBinding, callback⟩] })
      hd₀ hk rfl (fun _ => ⟨rfl, rfl⟩) fun _ _ => rfl
    have hok : listen n eventType callback d = .ok d₀.lastBinding d' := by
      show (change n _ >>= fun _ => pure d₀.lastBinding) d₀ = _
      rw [Step.bind_ok h]
      rfl
    exact .done hok ⟨he.wellFormed, he.size_le, he.tag?_eq, he.links, he.bystander, he.frame⟩
  · have hc := Step.bind_error (f := fun _ => pure d₀.lastBinding)
      (change_of_unknown hk fun m =>
        { m with handlers := m.handlers ++ [⟨eventType, d₀.lastBinding, callback⟩] })
    have h : listen n eventType callback d = .error (.unknownNode n.index) d₀ := hc
    rw [Meets, Step.Ends, h]
    exact ⟨rfl, .unknown rfl hk⟩

theorem unlisten_meets (hd : d.WellFormed) (n : NodeId) (eventType : String) (binding : Nat) :
    Meets d (unlisten n binding) (.unlisten n eventType binding : HostCall NodeId Nat _) := by
  by_cases hk : d.Known n
  · obtain ⟨d', h, he⟩ := change_effect (N := (· = n)) (e := none)
      (f := fun m => { m with handlers := m.handlers.filter (·.binding ≠ binding) })
      hd hk rfl (fun _ => ⟨rfl, rfl⟩) fun _ _ => rfl
    exact .done h he
  · exact .refused (change_of_unknown hk _) (.unknown rfl hk)

/-! ## Any call -/

/-- A call to a well-formed document is done or refused. -/
theorem perform_meets (hd : d.WellFormed) (wrap : ListenerId → κ) (c : HostCall NodeId Nat k) :
    Meets d ((host wrap).perform c) c := by
  cases c with
  | setText n text => exact setText_meets hd n text
  | remove n => exact remove_meets hd n
  | replace old new => exact replace_meets hd old new
  | append parent child => exact append_meets hd parent child
  | setAttribute n name value =>
    show Meets d (setAttribute n name value) _
    unfold setAttribute
    exact changeElement_meets hd _ rfl (.setAttributeOfText name value)
  | removeAttribute n name =>
    show Meets d (removeAttribute n name) _
    unfold removeAttribute
    exact changeElement_meets hd _ rfl (.removeAttributeOfText name)
  | setProperty n property =>
    show Meets d (setProperty n property) _
    unfold setProperty
    exact changeElement_meets hd _ rfl (.setPropertyOfText property)
  | createText text =>
    obtain ⟨d', h, r⟩ := allocate_eq (.text text) d
    exact .done h (r.effect hd)
  | createElement tag =>
    obtain ⟨d', h, r⟩ := allocate_eq (.element tag .empty .untouched) d
    exact .done h (r.effect hd)
  | listen n eventType listener => exact listen_meets hd n eventType (wrap listener) listener
  | unlisten n eventType binding => exact unlisten_meets hd n eventType binding

theorem effect_of_perform (hd : d.WellFormed) {wrap : ListenerId → κ} {c : HostCall NodeId Nat k}
    {a : k.Of NodeId Nat} (h : (host wrap).perform c d = .ok a d') :
    Effect c.Names (d.newLink c) d d' :=
  (Step.ends_iff.mp (perform_meets hd wrap c)).1 a d' h

theorem refusal_of_perform (hd : d.WellFormed) {wrap : ListenerId → κ} {c : HostCall NodeId Nat k}
    {e : HostError} (h : (host wrap).perform c d = .error e d') :
    d'.nodes = d.nodes ∧ Refusal d c e :=
  (Step.ends_iff.mp (perform_meets hd wrap c)).2 e d' h

end Document

end TreeEdit
