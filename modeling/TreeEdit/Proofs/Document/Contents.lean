import TreeEdit.Proofs.Document.Mirroring
import TreeEdit.Proofs.Document.Reachable
import TreeEdit.Proofs.Document.Sequences

/-!
# Texts, attributes, and moves

A text that is set is what is read back, from an element as from a text; the children that an
element had are let go with all that is below them. Attributes are written in place or added behind
the others. Together with the moves this says what every call does to the tree of a document, and
what it leaves alone: `sequences_of_reachable`.
-/

namespace TreeEdit.Document

variable {κ : Type} {d d' : Document κ} {n : NodeId} {text : String}

/-! ## Attributes -/

/-- An attribute has a value now. One that was there keeps its place, a new one comes last. -/
structure Sets (name value : String) (m m' : OrderedMap String String) : Prop where
  keys : m'.keys = if name ∈ m.keys then m.keys else m.keys ++ [name]
  values : ∀ k, m'.get? k = if name = k then some value else m.get? k

/-- An attribute is not there any more, and the others are in their order. -/
structure Unsets (name : String) (m m' : OrderedMap String String) : Prop where
  keys : m'.keys = m.keys.filter (· ≠ name)
  values : ∀ k, m'.get? k = if name = k then none else m.get? k

/-- The attributes of the element have changed as `R` says, and nothing else has. -/
structure Dressing (n : NodeId) (R : OrderedMap String String → OrderedMap String String → Prop)
    (d d' : Document κ) : Prop where
  element : ∃ m tag attributes attributes' properties, d.node? n = some m ∧
    m.content = .element tag attributes properties ∧ R attributes attributes' ∧
    d'.node? n = some { m with content := .element tag attributes' properties }
  frame : ∀ x, x ≠ n → d'.node? x = d.node? x

/-- Why attributes cannot be changed. -/
inductive RefusesAttributes (d : Document κ) (n : NodeId) : HostError → Prop
  | unknown (h : ¬d.Known n) : RefusesAttributes d n (.unknownNode n.index)
  | text (hk : d.Known n) (hn : d.tag? n = none) : RefusesAttributes d n (.attributesOfText n.index)

theorem changeElement_fulfils {f : OrderedMap String String → OrderedMap String String}
    {R : OrderedMap String String → OrderedMap String String → Prop} (hR : ∀ m, R m (f m))
    (d : Document κ) (n : NodeId) :
    Fulfils (changeElement n fun attributes properties => (f attributes, properties)) d
      (RefusesAttributes d n) (Dressing n R d) := by
  refine .of_cases (fun e he => ?_) ?_
  · cases he with
    | unknown h => exact Step.bind_error (look_of_unknown h)
    | text hk hn => exact changeElement_of_text hk hn _
  · by_cases hk : d.Known n
    swap
    · exact .inl ⟨_, .unknown hk⟩
    by_cases hn : (d.tag? n).isSome
    swap
    · exact .inl ⟨_, .text hk (Option.not_isSome_iff_eq_none.mp hn)⟩
    obtain ⟨m, tag, attributes, properties, hm, hc⟩ := tag?_isSome_iff.mp hn
    obtain ⟨d', h, r⟩ := changeElement_of_element hm hc fun attributes properties =>
      (f attributes, properties)
    refine .inr ⟨d', h, ⟨m, tag, attributes, f attributes, properties, hm, hc, hR _, ?_⟩,
      fun x hx => ?_⟩
    · rw [r, if_pos rfl, hm]
      rfl
    · rw [r, if_neg (Ne.symm hx)]

theorem setAttribute_fulfils (d : Document κ) (n : NodeId) (name value : String) :
    Fulfils (setAttribute n name value) d (RefusesAttributes d n)
      (Dressing n (Sets name value) d) :=
  changeElement_fulfils (fun m => ⟨m.keys_put name value, fun k => m.get?_put name k value⟩) d n

theorem removeAttribute_fulfils (d : Document κ) (n : NodeId) (name : String) :
    Fulfils (removeAttribute n name) d (RefusesAttributes d n) (Dressing n (Unsets name) d) :=
  changeElement_fulfils (fun m => ⟨m.keys_erase name, fun k => m.get?_erase name k⟩) d n

/-! ## Subtrees -/

/-- A subtree is read off the contents and the lists of its nodes. -/
theorem WellFormed.tree?_congr (hd : d.WellFormed) (hd' : d'.WellFormed) {S : NodeId → Prop}
    (hS : ∀ x, S x → ∀ c ∈ d.children x, S c)
    (hsame : ∀ x, S x → ∃ parent, d'.node? x = (d.node? x).map fun m => { m with parent }) :
    ∀ x, S x → d'.tree? x = d.tree? x := by
  intro x
  induction x using hd.wellFounded_down.induction with
  | _ x ih =>
    intro hx
    obtain ⟨parent, hnode⟩ := hsame x hx
    rw [hd'.tree?_eq, hd.tree?_eq, hnode]
    cases hm : d.node? x with
    | none => rfl
    | some m =>
      have hsub : m.children.filterMap d'.tree? = m.children.filterMap d.tree? := by
        refine List.filterMap_congr fun c hc => ?_
        rw [← children_of_node? hm] at hc
        exact ih c hc (hS x hx c hc)
      rw [Option.map_some, Option.map_some, Option.map_some, growth, growth, hsub]

/-! ## Texts -/

/-- The element has a new text node as its only child, or no child if the text is empty. The
children that it had have lost their parent, and keep what is below them. -/
structure Retexting (n : NodeId) (text : String) (d d' : Document κ) : Prop
    extends Spares
      (fun x => x = n ∨ d.parent? x = some n ∨ text ≠ "" ∧ x = ⟨d.size⟩) d d' where
  list : d'.children n = if text = "" then [] else [⟨d.size⟩]
  parent : d'.parent? n = d.parent? n
  orphans : ∀ c ∈ d.children n,
    d'.node? c = (d.node? c).map fun m => { m with parent := none }
  subtrees : ∀ c ∈ d.children n, d'.tree? c = d.tree? c
  fresh : text ≠ "" → d'.node? ⟨d.size⟩
    = some { content := .text text, parent := some n, children := [], handlers := [] }

/-- What is set as the text of a node is read as its text. -/
structure Writing (n : NodeId) (text : String) (d d' : Document κ) : Prop where
  ofText : d.tag? n = none → Refilled n (.text text) d d'
  ofElement : (d.tag? n).isSome → Retexting n text d d'
  read : d'.textContent n = text

/-! ### Elements -/

/-- The children of an element whose text has been set. -/
def textChildren (d : Document κ) (text : String) : List NodeId :=
  if text = "" then [] else [⟨d.size⟩]

/-- All nodes after the text of the element `n` has been set. -/
structure Retexted (n : NodeId) (text : String) (d d' : Document κ) : Prop where
  known : ∀ x, d.Known x → d'.node? x = (d.node? x).map fun m =>
    { m with
      parent := if d.parent? x = some n then none else d.parent? x
      children := if x = n then d.textChildren text else d.children x }
  unknown : ∀ x, ¬d.Known x → d'.node? x =
    if text ≠ "" ∧ x = ⟨d.size⟩ then
      some { content := .text text, parent := some n, children := [], handlers := [] }
    else none

theorem Emptied.retexted (r : Emptied n d d') : Retexted n "" d d' where
  known x _ := by
    rw [r.nodes, Function.update_apply]
    rfl
  unknown x hx := by
    have hnone : d'.node? x = none := by
      rw [r.nodes, node?_eq_none_iff.mpr hx]
      rfl
    rw [hnone, if_neg fun h => h.1 rfl]

/-- A text is made after the element has been emptied, and appended to it. -/
theorem retexted_of_nonempty {d₁ d₂ : Document κ} (hd : d.WellFormed) (hn : d.Known n)
    (ht : text ≠ "") (r₁ : Emptied n d d₁) (r₂ : Allocated (.text text) d₁ d₂)
    (r₃ : Appended n ⟨d.size⟩ d₂ d') : Retexted n text d d' := by
  have hfresh : ¬d.Known ⟨d.size⟩ := Allocated.unknown_new d
  have hne {x : NodeId} (hx : d.Known x) : x ≠ ⟨d.size⟩ := fun h => hfresh (h ▸ hx)
  have hsize : (⟨d₁.size⟩ : NodeId) = ⟨d.size⟩ := congrArg NodeId.mk r₁.size_eq
  -- the new text is in no list before it is appended
  have hlists (q : NodeId) : (d₂.children q).filter (· ≠ ⟨d.size⟩)
      = if q = n then [] else d.children q := by
    rw [r₂.children_eq, r₁.children_eq, Function.update_apply]
    by_cases hq : q = n
    · rw [if_pos hq]
      rfl
    · rw [if_neg hq]
      exact hd.filter_children fun h => hfresh (known_of_parent? h)
  constructor
  · intro x hx
    have hold : d₂.node? x = d₁.node? x := r₂.node?_of_known (r₁.known_iff.mpr hx)
    rw [r₃.nodes, hold, r₁.nodes, Option.map_map, Function.update_of_ne (hne hx), r₂.parent?_eq,
      r₁.parent?_eq, Function.update_apply, hlists, hlists, if_pos rfl, List.nil_append,
      textChildren, if_neg ht]
    by_cases hxn : x = n
    · rw [if_pos hxn, if_pos hxn]
      rfl
    · rw [if_neg hxn, if_neg hxn, if_neg hxn]
      rfl
  · intro x hx
    by_cases hxf : x = ⟨d.size⟩
    · subst hxf
      rw [if_pos ⟨ht, rfl⟩, r₃.nodes, r₂, if_pos hsize, Function.update_self,
        Function.update_of_ne (hne hn).symm, hlists, if_neg (hne hn).symm,
        children_of_unknown hfresh]
      rfl
    · rw [if_neg fun h => hxf h.2, r₃.nodes, r₂, if_neg (hsize ▸ Ne.symm hxf), r₁.nodes,
        node?_eq_none_iff.mpr hx]
      rfl

theorem setText_retexts (hd : d.WellFormed) (hn : (d.tag? n).isSome) (text : String) :
    ∃ d', setText n text d = .ok () d' ∧ Retexted n text d d' := by
  by_cases ht : text = ""
  · subst ht
    obtain ⟨d', h, r⟩ := setText_empty hd hn
    exact ⟨d', h, r.retexted⟩
  · obtain ⟨d₁, d₂, d', h, r₁, r₂, r₃, -⟩ := setText_nonempty hd hn ht
    exact ⟨d', h, retexted_of_nonempty hd (known_of_tag? hn) ht r₁ r₂ r₃⟩

namespace Retexted

/-- Below the children of the element no link has changed. -/
theorem node?_of_below (r : Retexted n text d d') (hd : d.WellFormed) {x : NodeId}
    (hx : d.Below x n) :
    ∃ parent, d'.node? x = (d.node? x).map fun m => { m with parent } := by
  obtain ⟨y, hy, -⟩ := Relation.TransGen.head'_iff.mp hx
  have hxn : x ≠ n := by
    rintro rfl
    exact hd.acyclic x hx
  refine ⟨if d.parent? x = some n then none else d.parent? x, ?_⟩
  rw [r.known x (known_of_parent? hy), if_neg hxn]
  cases hm : d.node? x with
  | none => rfl
  | some m =>
    rw [children_of_node? hm]
    rfl

theorem subtrees (r : Retexted n text d d') (hd : d.WellFormed) (hd' : d'.WellFormed) :
    ∀ x, d.Below x n → d'.tree? x = d.tree? x :=
  hd.tree?_congr hd' (fun x hx c hc => .head ((hd.linked x c).mp hc) hx)
    fun _ hx => r.node?_of_below hd hx

theorem retexting (r : Retexted n text d d') (hd : d.WellFormed) (hd' : d'.WellFormed)
    (hn : d.Known n) : Retexting n text d d' where
  labels x hx := by
    rw [label?, label?, r.known x hx, Option.map_map]
    rfl
  frame x hx := by
    by_cases hk : d.Known x
    · rw [r.known x hk, if_neg fun h => hx (.inr (.inl h)), if_neg fun h => hx (.inl h)]
      exact ((Relinked.refl d).nodes x).symm
    · rw [r.unknown x hk, if_neg fun h => hx (.inr (.inr h)), node?_eq_none_iff.mpr hk]
  list := by
    obtain ⟨m, hm⟩ := known_iff.mp hn
    rw [children, r.known n hn, hm, if_pos rfl]
    rfl
  parent := by
    obtain ⟨m, hm⟩ := known_iff.mp hn
    have hself : d.parent? n ≠ some n := fun h => hd.acyclic n (.single h)
    rw [parent?, r.known n hn, hm, if_neg hself]
    rfl
  orphans c hc := by
    have hp : d.parent? c = some n := (hd.linked n c).mp hc
    have hcn : c ≠ n := by
      rintro rfl
      exact hd.acyclic c (.single hp)
    rw [r.known c (known_of_parent? hp), if_pos hp, if_neg hcn]
    cases hm : d.node? c with
    | none => rfl
    | some m =>
      rw [children_of_node? hm]
      rfl
  subtrees c hc := r.subtrees hd hd' c (.single ((hd.linked n c).mp hc))
  fresh ht := by
    rw [r.unknown _ (Allocated.unknown_new d), if_pos ⟨ht, rfl⟩]

/-- The text that was set is the text of the element. -/
theorem textContent_eq (r : Retexted n text d d') (hd' : d'.WellFormed)
    (hn : (d.tag? n).isSome) : d'.textContent n = text := by
  obtain ⟨m, tag, attributes, properties, hm, hc⟩ := tag?_isSome_iff.mp hn
  have hnode := r.known n (known_of_tag? hn)
  rw [hm, Option.map_some, if_pos rfl] at hnode
  rw [hd'.textContent_of_element hnode hc, textChildren]
  by_cases ht : text = ""
  · rw [if_pos ht, ht]
    rfl
  · have hfresh := r.unknown _ (Allocated.unknown_new d)
    rw [if_pos ⟨ht, rfl⟩] at hfresh
    rw [if_neg ht, List.flatMap_singleton, hd'.textContent_of_text hfresh rfl]
    exact String.ofList_toList

end Retexted

/-! ### Any node -/

theorem setText_refills (hk : d.Known n) (hn : d.tag? n = none) (text : String) :
    ∃ d', setText n text d = .ok () d' ∧ Refilled n (.text text) d d' := by
  have hok := change_of_known hk fun m : Node κ => { m with content := .text text }
  refine ⟨_, (setText_of_text hk hn text).trans hok, fun x => ?_⟩
  rw [node?_of_change hok]
  by_cases hx : n = x
  · rw [if_pos hx, if_pos hx, hx]
  · rw [if_neg hx, if_neg hx]

theorem setText_fulfils (hd : d.WellFormed) (n : NodeId) (text : String) :
    Fulfils (setText n text) d (RefusesUnknown d n) (Writing n text d) := by
  have hwf (d' : Document κ) (h : setText n text d = .ok () d') : d'.WellFormed :=
    ((Step.ends_iff.mp (setText_meets hd n text)).1 () d' h).wellFormed
  refine .of_cases (fun e he => he.2 ▸ setText_of_unknown he.1 text) ?_
  by_cases hk : d.Known n
  swap
  · exact .inl ⟨_, hk, rfl⟩
  right
  by_cases hn : (d.tag? n).isSome
  · obtain ⟨d', h, r⟩ := setText_retexts hd hn text
    refine ⟨d', h, fun hnone => ?_, fun _ => r.retexting hd (hwf d' h) hk,
      r.textContent_eq (hwf d' h) hn⟩
    rw [hnone] at hn
    cases hn
  · have hnone := Option.not_isSome_iff_eq_none.mp hn
    obtain ⟨d', h, r⟩ := setText_refills hk hnone text
    obtain ⟨m, hm⟩ := known_iff.mp hk
    have hnode := r n
    rw [if_pos rfl, hm, Option.map_some] at hnode
    exact ⟨d', h, fun _ => r, fun hs => absurd hs hn, (hwf d' h).textContent_of_text hnode rfl⟩

/-! ## All calls -/

/-- What the calls that change the tree of a document do, and when they are refused. -/
structure Sequences (d : Document κ) : Prop where
  append : ∀ p c, Fulfils (append p c) d (RefusesAppend d p c) (Appending p c d)
  replace : ∀ old new, Fulfils (replace old new) d (RefusesReplace d old new) (Replacing old new d)
  remove : ∀ n, Fulfils (remove n) d (RefusesUnknown d n) (Removing n d)
  setText : ∀ n text, Fulfils (setText n text) d (RefusesUnknown d n) (Writing n text d)
  setAttribute : ∀ n name value, Fulfils (setAttribute n name value) d (RefusesAttributes d n)
    (Dressing n (Sets name value) d)
  removeAttribute : ∀ n name, Fulfils (removeAttribute n name) d (RefusesAttributes d n)
    (Dressing n (Unsets name) d)

/-- Whatever calls have been made to a document, the next one changes its lists, texts and
attributes as specified and leaves everything else alone, or is refused for exactly the reasons
given and changes nothing. -/
theorem sequences_of_reachable (h : Reachable d) : Sequences d where
  append := append_fulfils h.wellFormed
  replace := replace_fulfils h.wellFormed
  remove := remove_fulfils h.wellFormed
  setText := setText_fulfils h.wellFormed
  setAttribute := setAttribute_fulfils d
  removeAttribute := removeAttribute_fulfils d

/-- A list with two elements. -/
def twoItems : Document ListenerId :=
  Step.after (Document.append ⟨0⟩ ⟨2⟩) (Step.after (createElement "li") (withSeed "ul" "li"))

/-- The second element takes the place of the first one, and the list has one element less. -/
theorem sequences_twoItems :
    Reachable twoItems ∧ Sequences twoItems ∧
      ∃ d', Document.replace ⟨1⟩ ⟨2⟩ twoItems = .ok () d' ∧ Replacing ⟨1⟩ ⟨2⟩ twoItems d' ∧
        d'.children ⟨0⟩ = [⟨2⟩] := by
  have hreach : Reachable twoItems :=
    ((withSeed_reachable "ul" "li").perform id (.createElement "li")).perform id (.append ⟨0⟩ ⟨2⟩)
  have hseq := sequences_of_reachable hreach
  obtain ⟨d', h, hlist⟩ : ∃ d', Document.replace ⟨1⟩ ⟨2⟩ twoItems = .ok () d' ∧
      d'.children ⟨0⟩ = [⟨2⟩] := ⟨_, rfl, rfl⟩
  exact ⟨hreach, hseq, d', h, (hseq.replace ⟨1⟩ ⟨2⟩).done d' h, hlist⟩

end TreeEdit.Document
