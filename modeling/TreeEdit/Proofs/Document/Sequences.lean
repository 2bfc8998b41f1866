import TreeEdit.Proofs.Document.Replacement

/-!
# Moves as changes of lists

What the calls that move nodes do, in terms of the lists of children and of the parents. A node that
is appended comes last in its new list; one that replaces another stands where that one stood once
it has been taken out itself; one that is removed leaves the others in their order. `Fulfils` states
such a specification together with the exact reasons for a refusal, which changes nothing.
-/

namespace TreeEdit.Document

variable {κ : Type} {d d' : Document κ} {p c n old new : NodeId}

/-! ## Specifications -/

/-- What a node is and what is bound to it, its links apart. -/
def label? (d : Document κ) (id : NodeId) : Option (Content × List (Handler κ)) :=
  (d.node? id).map fun n => (n.content, n.handlers)

/-- Nodes keep their contents and handlers, and where nothing is touched everything stays, also that
there is no node. -/
structure Spares (touched : NodeId → Prop) (d d' : Document κ) : Prop where
  labels : ∀ x, d.Known x → d'.label? x = d.label? x
  frame : ∀ x, ¬touched x → d'.node? x = d.node? x

/-- A change is refused just for the given reasons, and then leaves the document as it is. Otherwise
it is done as specified. -/
structure Fulfils (x : Change κ Unit) (d : Document κ) (Refused : HostError → Prop)
    (Done : Document κ → Prop) : Prop where
  refused : ∀ e d', x d = .error e d' ↔ Refused e ∧ d' = d
  done : ∀ d', x d = .ok () d' → Done d'

variable {x : Change κ Unit} {Refused : HostError → Prop} {Done : Document κ → Prop}

theorem Fulfils.of_cases (hrefused : ∀ e, Refused e → x d = .error e d)
    (h : (∃ e, Refused e) ∨ ∃ d', x d = .ok () d' ∧ Done d') : Fulfils x d Refused Done := by
  rcases h with ⟨e, he⟩ | ⟨d', hx, hd'⟩
  · have hx := hrefused e he
    refine ⟨fun e' d₁ => ⟨fun h => ?_, fun h => ?_⟩, fun d₁ h => ?_⟩
    · cases hx.symm.trans h
      exact ⟨he, rfl⟩
    · obtain ⟨he', rfl⟩ := h
      exact hrefused e' he'
    · cases hx.symm.trans h
  · refine ⟨fun e d₁ => ⟨fun h => ?_, fun h => ?_⟩, fun d₁ h => ?_⟩
    · cases hx.symm.trans h
    · cases hx.symm.trans (hrefused e h.1)
    · cases hx.symm.trans h
      exact hd'

theorem Relinked.spares {P : NodeId → Option NodeId} {C : NodeId → List NodeId}
    {touched : NodeId → Prop} (r : Relinked d d' P C)
    (hP : ∀ x, ¬touched x → P x = d.parent? x) (hC : ∀ x, ¬touched x → C x = d.children x) :
    Spares touched d d' where
  labels x _ := by
    rw [label?, label?, r.nodes, Option.map_map]
    rfl
  frame x hx := r.node?_eq (hP x hx) (hC x hx)

/-! ## Removing -/

/-- `n` has no parent and is in no list, and the lists are otherwise as they were. -/
structure Removing (n : NodeId) (d d' : Document κ) : Prop
    extends Spares (fun x => x = n ∨ d.parent? n = some x) d d' where
  lists : ∀ q, d'.children q = (d.children q).filter (· ≠ n)
  detached : d'.parent? n = none
  otherParents : ∀ x, x ≠ n → d'.parent? x = d.parent? x

/-- Only an unknown node cannot be removed. -/
def RefusesUnknown (d : Document κ) (n : NodeId) (e : HostError) : Prop :=
  ¬d.Known n ∧ e = .unknownNode n.index

theorem Removed.removing (r : Removed n d d') (hd : d.WellFormed) : Removing n d d' where
  toSpares := Relinked.spares r
    (fun _ hx => Function.update_of_ne (fun h => hx (.inl h)) _ _)
    fun _ hx => hd.filter_children fun h => hx (.inr h)
  lists := r.children_eq
  detached := by rw [r.parent?_eq, Function.update_self]
  otherParents x hx := by rw [r.parent?_eq, Function.update_of_ne hx]

theorem remove_fulfils (hd : d.WellFormed) (n : NodeId) :
    Fulfils (remove n) d (RefusesUnknown d n) (Removing n d) := by
  refine .of_cases (fun e he => he.2 ▸ remove_of_unknown he.1) ?_
  by_cases hn : d.Known n
  · obtain ⟨d', h, r⟩ := remove_of_known hd hn
    exact .inr ⟨d', h, r.removing hd⟩
  · exact .inl ⟨_, hn, rfl⟩

/-! ## Appending -/

/-- `c` is the last child of `p`, in front of which are the others in their order, and it is in no
other list. -/
structure Appending (p c : NodeId) (d d' : Document κ) : Prop
    extends Spares (fun x => x = p ∨ x = c ∨ d.parent? c = some x) d d' where
  list : d'.children p = (d.children p).filter (· ≠ c) ++ [c]
  otherLists : ∀ q, q ≠ p → d'.children q = (d.children q).filter (· ≠ c)
  parent : d'.parent? c = some p
  otherParents : ∀ x, x ≠ c → d'.parent? x = d.parent? x

/-- Why a child cannot be appended. Of several reasons the first one is given. -/
inductive RefusesAppend (d : Document κ) (p c : NodeId) : HostError → Prop
  | unknown (hp : ¬d.Known p) : RefusesAppend d p c (.unknownNode p.index)
  | text (hk : d.Known p) (hp : d.tag? p = none) : RefusesAppend d p c .childrenOfText
  | cycle (hp : (d.tag? p).isSome) (hw : d.Within p c) : RefusesAppend d p c .appendCycle
  | unknownChild (hp : (d.tag? p).isSome) (hc : ¬d.Known c) :
    RefusesAppend d p c (.unknownNode c.index)

theorem Appended.appending (r : Appended p c d d') (hd : d.WellFormed) : Appending p c d d' where
  toSpares := Relinked.spares r
    (fun _ hx => Function.update_of_ne (fun h => hx (.inr (.inl h))) _ _)
    fun x hx => by
      rw [Function.update_of_ne fun h => hx (.inl h)]
      exact hd.filter_children fun h => hx (.inr (.inr h))
  list := by rw [r.children_eq, Function.update_self]
  otherLists q hq := by rw [r.children_eq, Function.update_of_ne hq]
  parent := by rw [r.parent?_eq, Function.update_self]
  otherParents x hx := by rw [r.parent?_eq, Function.update_of_ne hx]

theorem append_of_refuses (hd : d.WellFormed) {e : HostError} (h : RefusesAppend d p c e) :
    append p c d = .error e d := by
  cases h with
  | unknown hp => exact append_of_unknown hp c
  | text hk hp => exact append_of_text hk hp c
  | cycle hp hw => exact append_of_within hd hp hw
  | unknownChild hp hc => exact append_of_unknown_child hd hp hc

theorem append_fulfils (hd : d.WellFormed) (p c : NodeId) :
    Fulfils (append p c) d (RefusesAppend d p c) (Appending p c d) := by
  refine .of_cases (fun e => append_of_refuses hd) ?_
  by_cases hk : d.Known p
  swap
  · exact .inl ⟨_, .unknown hk⟩
  by_cases hp : (d.tag? p).isSome
  swap
  · exact .inl ⟨_, .text hk (Option.not_isSome_iff_eq_none.mp hp)⟩
  by_cases hw : d.Within p c
  · exact .inl ⟨_, .cycle hp hw⟩
  by_cases hc : d.Known c
  swap
  · exact .inl ⟨_, .unknownChild hp hc⟩
  obtain ⟨d', h, r⟩ := append_of_known hd hp hc hw
  exact .inr ⟨d', h, r.appending hd⟩

/-! ## Replacing -/

/-- `new` stands in the list of `p` where `old` stood once `new` had been taken out of all lists.
`old` has no parent any more. -/
structure TakingPlace (p old new : NodeId) (d d' : Document κ) : Prop
    extends Spares (fun x => x = p ∨ x = old ∨ x = new ∨ d.parent? new = some x) d d' where
  list : ∃ before after, (d.children p).filter (· ≠ new) = before ++ old :: after ∧
    d'.children p = before ++ new :: after
  otherLists : ∀ q, q ≠ p → d'.children q = (d.children q).filter (· ≠ new)
  detached : d'.parent? old = none
  parent : d'.parent? new = some p
  otherParents : ∀ x, x ≠ old → x ≠ new → d'.parent? x = d.parent? x

/-- `new` takes the place of `old`. If `old` has none, or is `new`, nothing happens. -/
inductive Replacing (old new : NodeId) (d d' : Document κ) : Prop
  | idle (h : d.parent? old = none ∨ old = new) (hd' : d' = d)
  | moved {p : NodeId} (hp : d.parent? old = some p) (hne : old ≠ new)
    (h : TakingPlace p old new d d')

/-- Why a node cannot be replaced. A node without a place is not replaced by anything, so then it
does not matter whether the other one is there. -/
inductive RefusesReplace (d : Document κ) (old new : NodeId) : HostError → Prop
  | unknown (h : ¬d.Known old) : RefusesReplace d old new (.unknownNode old.index)
  | cycle {p : NodeId} (hp : d.parent? old = some p) (hne : old ≠ new) (hw : d.Within p new) :
    RefusesReplace d old new .replaceCycle
  | unknownNew {p : NodeId} (hp : d.parent? old = some p) (hn : ¬d.Known new) :
    RefusesReplace d old new (.unknownNode new.index)

theorem Replaced.takingPlace (r : Replaced p old new d d') (hd : d.WellFormed) (hne : old ≠ new) :
    TakingPlace p old new d d' := by
  obtain ⟨before, after, hl, r⟩ := r
  have hother {x : NodeId} (ho : x ≠ old) (hn : x ≠ new) :
      Function.update (Function.update d.parent? old none) new (some p) x = d.parent? x := by
    rw [Function.update_of_ne hn, Function.update_of_ne ho]
  exact {
    toSpares := r.spares
      (fun x hx => hother (fun h => hx (.inr (.inl h))) fun h => hx (.inr (.inr (.inl h))))
      fun x hx => by
        rw [Function.update_of_ne fun h => hx (.inl h)]
        exact hd.filter_children fun h => hx (.inr (.inr (.inr h)))
    list := ⟨before, after, hl, by rw [r.children_eq, Function.update_self]⟩
    otherLists := fun q hq => by rw [r.children_eq, Function.update_of_ne hq]
    detached := by rw [r.parent?_eq, Function.update_of_ne hne, Function.update_self]
    parent := by rw [r.parent?_eq, Function.update_self]
    otherParents := fun x ho hn => by rw [r.parent?_eq, hother ho hn] }

theorem replace_of_refuses (hd : d.WellFormed) {e : HostError} (h : RefusesReplace d old new e) :
    replace old new d = .error e d := by
  cases h with
  | unknown h => exact replace_of_unknown h new
  | cycle hp hne hw => exact replace_of_within hd hp hne hw
  | unknownNew hp hn => exact replace_of_unknown_new hd hp hn

theorem replace_fulfils (hd : d.WellFormed) (old new : NodeId) :
    Fulfils (replace old new) d (RefusesReplace d old new) (Replacing old new d) := by
  refine .of_cases (fun e => replace_of_refuses hd) ?_
  by_cases hk : d.Known old
  swap
  · exact .inl ⟨_, .unknown hk⟩
  cases hp : d.parent? old with
  | none => exact .inr ⟨d, replace_of_detached hk hp new, .idle (.inl hp) rfl⟩
  | some p =>
    by_cases hne : old = new
    · subst hne
      exact .inr ⟨d, replace_self hp, .idle (.inr rfl) rfl⟩
    by_cases hw : d.Within p new
    · exact .inl ⟨_, .cycle hp hne hw⟩
    by_cases hn : d.Known new
    swap
    · exact .inl ⟨_, .unknownNew hp hn⟩
    obtain ⟨d', h, r⟩ := replace_of_known hd hp hne hn hw
    exact .inr ⟨d', h, .moved hp hne (r.takingPlace hd hne)⟩

end TreeEdit.Document
