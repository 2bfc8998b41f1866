import TreeEdit.Proofs.Machine.Moves

/-!
# Where the nodes of a stack lie

A program may build on any node that it comes to, so what keeps it from putting a node below itself
is the order in which it comes to them. Of two nodes on the stack the lower one is never in the
subtree of the upper one, and never strictly below its parent either; the second half is what makes
the first survive a step to the next sibling. `Placed` says so for all slots at once.

Main statements: `placed_of_moves`, and `Placed.refusal` (of all reasons for a refusal, only that a
node is a text is left).
-/

namespace TreeEdit

open Document (host Refusal LinksUpTo Effect)

variable {κ : Type} {wrap : ListenerId → κ} {d d' : Document κ} {k : Reply} {u l n p : NodeId}
  {slot : Option NodeId} {st : List (Option NodeId)}

/-! ## Pairs of nodes -/

/-- The node `l` is neither in the subtree of `u` nor strictly below the parent of `u`. -/
def Document.Clear (d : Document κ) (u l : NodeId) : Prop :=
  ¬ d.Within l u ∧ ∀ p, d.parent? u = some p → ¬ d.Below l p

namespace Document.Clear

theorem child_self (hd : d.WellFormed) (h : d.parent? u = some n) : d.Clear u n := by
  refine ⟨hd.not_within_of_parent? h, fun p hp => ?_⟩
  cases h.symm.trans hp
  exact hd.acyclic n

theorem child (hn : d.Clear n l) (h : d.parent? u = some n) : d.Clear u l := by
  refine ⟨fun hl => hn.1 (hl.tail h), fun p hp hl => ?_⟩
  cases h.symm.trans hp
  exact hn.1 hl.to_reflTransGen

theorem sibling (hn : d.Clear n l) (h : d.parent? n = some p) (hu : d.parent? u = some p) :
    d.Clear u l := by
  refine ⟨fun hl => hn.2 p h (.tail' hl hu), fun q hq => ?_⟩
  cases hu.symm.trans hq
  exact hn.2 p h

/-- A new link leaves a pair alone if the lower node does not lie below it. Where it is the link of
the upper node itself, the lower one must not lie below the new parent. -/
theorem frame {e : Option (NodeId × NodeId)} (h : d.Clear u l) (hlinks : LinksUpTo e d d')
    (he : ∀ x y, e = some (x, y) → ¬ d.Within l x ∧ (u = x → ¬ d.Below l y)) : d'.Clear u l := by
  constructor
  · intro hl
    rcases hlinks.within hl with hold | ⟨x, y, hxy, hlx, _⟩
    · exact h.1 hold
    · exact (he x y hxy).1 hlx
  · intro q hq hl
    have hold : d.Below l q := by
      rcases hlinks.below hl with hold | ⟨x, y, hxy, hlx, _⟩
      · exact hold
      · exact absurd hlx (he x y hxy).1
    rcases hlinks u q hq with hup | hnew
    · exact h.2 q hup hold
    · exact (he u q hnew).2 rfl hold

end Document.Clear

/-! ## All slots -/

/-- The nodes of the slots are there, and each is out of the way of those above it. -/
structure Placed (s : Site κ) : Prop where
  wellFormed : s.doc.WellFormed
  known : ∀ n, some n ∈ s.slots → s.doc.Known n
  clear : s.slots.Pairwise fun upper lower =>
    ∀ u l, upper = some u → lower = some l → s.doc.Clear u l

theorem placed_nil (hd : d.WellFormed) : Placed ⟨d, []⟩ := by
  refine ⟨hd, fun n hn => ?_, List.Pairwise.nil⟩
  cases hn

theorem placed_cons_iff : Placed ⟨d, slot :: st⟩ ↔
    Placed ⟨d, st⟩ ∧ ∀ n, slot = some n → d.Known n ∧ ∀ l, some l ∈ st → d.Clear n l := by
  constructor
  · intro h
    obtain ⟨htop, hrest⟩ := List.pairwise_cons.mp h.clear
    refine ⟨⟨h.wellFormed, fun n hn => h.known n (List.mem_cons_of_mem _ hn), hrest⟩, ?_⟩
    rintro n rfl
    exact ⟨h.known n List.mem_cons_self, fun l hl => htop _ hl n l rfl rfl⟩
  · rintro ⟨h, htop⟩
    refine ⟨h.wellFormed, fun n hn => ?_,
      List.pairwise_cons.mpr ⟨fun lower hl u l hu hl' => ?_, ?_⟩⟩
    · rcases List.mem_cons.mp hn with hslot | hn
      · exact (htop n hslot.symm).1
      · exact h.known n hn
    · subst hl'
      exact (htop u hu).2 l hl
    · exact h.clear

namespace Placed

theorem tail (h : Placed ⟨d, slot :: st⟩) : Placed ⟨d, st⟩ := (placed_cons_iff.mp h).1

theorem top (h : Placed ⟨d, some n :: st⟩) :
    d.Known n ∧ ∀ l, some l ∈ st → d.Clear n l := (placed_cons_iff.mp h).2 n rfl

/-- A call that links no node which a slot lies below. -/
theorem frame {N : NodeId → Prop} {e : Option (NodeId × NodeId)} (h : Placed ⟨d, st⟩)
    (he : Effect N e d d') (hlink : ∀ x y, e = some (x, y) → ∀ l, some l ∈ st → ¬ d.Within l x) :
    Placed ⟨d', st⟩ := by
  refine ⟨he.wellFormed, fun n hn => he.known (h.known n hn), ?_⟩
  -- a pair of slots survives, since no slot lies below the lower end of the new link
  refine h.clear.imp_of_mem fun {upper lower} hu hl hclear u l hu' hl' => ?_
  subst hu' hl'
  refine (hclear u l rfl rfl).frame he.links fun x y hxy => ⟨hlink x y hxy l hl, ?_⟩
  rintro rfl
  exact absurd .refl (hlink u y hxy u hu)

theorem firstChild (h : Placed ⟨d, some n :: st⟩) :
    Placed ⟨d, d.firstChild? n :: some n :: st⟩ := by
  refine placed_cons_iff.mpr ⟨h, fun c hc => ?_⟩
  have hp := h.wellFormed.parent?_of_firstChild? hc
  refine ⟨Document.known_of_parent? hp, fun l hl => ?_⟩
  rcases List.mem_cons.mp hl with hl | hl
  · cases hl
    exact .child_self h.wellFormed hp
  · exact (h.top.2 l hl).child hp

theorem nextSibling (h : Placed ⟨d, some n :: st⟩) : Placed ⟨d, d.nextSibling? n :: st⟩ := by
  refine placed_cons_iff.mpr ⟨h.tail, fun s hs => ?_⟩
  obtain ⟨p, hn, hp⟩ := h.wellFormed.parent?_of_nextSibling? hs
  exact ⟨Document.known_of_parent? hp, fun l hl => (h.top.2 l hl).sibling hn hp⟩

/-! ### Calls -/

theorem create {content : Content} (h : Placed ⟨d, st⟩) (r : Document.Allocated content d d') :
    Placed ⟨d', some ⟨d.size⟩ :: st⟩ := by
  have he : Effect (fun _ => False) none d d' := r.effect h.wellFormed
  refine placed_cons_iff.mpr ⟨h.frame he nofun, fun n hn => ?_⟩
  cases hn
  have hnew : ¬ d.Known ⟨d.size⟩ := Document.Allocated.unknown_new d
  refine ⟨r.known_iff.mpr (.inl rfl), fun l hl => ?_⟩
  -- nothing lies below a node that is not there yet
  have hclear : d.Clear ⟨d.size⟩ l := by
    refine ⟨fun hl' => hnew (h.wellFormed.known_of_within hl' (h.known l hl)), fun p hp => ?_⟩
    exact absurd (Document.known_of_parent? hp) hnew
  exact hclear.frame he.links nofun

theorem replace {old new : NodeId} (h : Placed ⟨d, some new :: some old :: st⟩)
    (he : Effect (fun id => id = old ∨ id = new)
      ((d.parent? old).map fun p => (new, p)) d d') : Placed ⟨d', some new :: st⟩ := by
  have hbelow (x y : NodeId) (hxy : (d.parent? old).map (fun p => (new, p)) = some (x, y)) :
      x = new ∧ d.parent? old = some y := by
    obtain ⟨p, hp, hxy⟩ := Option.map_eq_some_iff.mp hxy
    cases hxy
    exact ⟨rfl, hp⟩
  have hnew (l : NodeId) (hl : some l ∈ st) : d.Clear new l :=
    h.top.2 l (List.mem_cons_of_mem _ hl)
  refine placed_cons_iff.mpr ⟨h.tail.tail.frame he fun x y hxy l hl => ?_, fun n hn => ?_⟩
  · rw [(hbelow x y hxy).1]
    exact (hnew l hl).1
  · cases hn
    refine ⟨he.known h.top.1, fun l hl => (hnew l hl).frame he.links fun x y hxy => ?_⟩
    obtain ⟨rfl, hold⟩ := hbelow x y hxy
    exact ⟨(hnew l hl).1, fun _ => (h.tail.top.2 l hl).2 y hold⟩

/-- A call that the slots prompt leaves the slots in their places. -/
theorem call (h : Placed ⟨d, st⟩) {c : HostCall NodeId Nat k}
    {next : k.Of NodeId Nat → List (Option NodeId)} {a : k.Of NodeId Nat}
    (hp : Prompts d st c next) (hc : (host wrap).perform c d = .ok a d') : Placed ⟨d', next a⟩ := by
  have he := Document.effect_of_perform h.wellFormed hc
  cases hp with
  | setText n text st =>
    refine h.frame he fun x y hxy l hl hlx => ?_
    cases hxy
    exact Document.Allocated.unknown_new d (h.wellFormed.known_of_within hlx (h.known l hl))
  | setAttribute | removeAttribute | setProperty | listen | unlisten => exact h.frame he nofun
  | remove n st => exact h.nextSibling.frame he nofun
  | replace old new st => exact h.replace he
  | append p c st =>
    refine h.tail.frame he fun x y hxy l hl => ?_
    cases hxy
    exact (h.top.2 l hl).1
  | createText text =>
    obtain ⟨d₁, h₁, r⟩ := Document.allocate_eq (.text text) d
    cases h₁.symm.trans hc
    exact h.create r
  | createElement tag =>
    obtain ⟨d₁, h₁, r⟩ := Document.allocate_eq (.element tag .empty .untouched) d
    cases h₁.symm.trans hc
    exact h.create r

end Placed

theorem placed_of_move {s s' : Site κ} (h : Placed s) (hm : Move wrap s s') : Placed s' := by
  cases hm with
  | pop => exact h.tail
  | firstChild => exact h.firstChild
  | nextSibling => exact h.nextSibling
  | call hp hc => exact h.call hp hc

theorem placed_of_moves {s s' : Site κ} (h : Placed s) (hm : Moves wrap s s') : Placed s' := by
  induction hm with
  | refl => exact h
  | tail _ hlast ih => exact placed_of_move ih hlast

/-! ## Refusals -/

/-- The document refuses a call of a placed stack only if it asks a text for what texts do not
have. -/
theorem Placed.refusal (h : Placed ⟨d, st⟩) {c : HostCall NodeId Nat k}
    {next : k.Of NodeId Nat → List (Option NodeId)} (hp : Prompts d st c next) {e : HostError}
    (he : Refusal d c e) :
    (∃ n, d.Known n ∧ d.tag? n = none ∧ e = .attributesOfText n.index) ∨ e = .childrenOfText := by
  cases he with
  | unknown hc hid => exact absurd (h.known _ (hp.names hc)) hid
  | setAttributeOfText _ _ hk hn | removeAttributeOfText _ hk hn | setPropertyOfText _ hk hn =>
    exact .inl ⟨_, hk, hn, rfl⟩
  | childOfText => exact .inr rfl
  | @appendCycle p c hw =>
    cases hp with
    | append => exact absurd hw (h.top.2 p List.mem_cons_self).1
  | @replaceCycle old new p hold hw =>
    cases hp with
    | replace =>
      have hcycle : d.Within old new := .head hold hw
      exact absurd hcycle (h.top.2 old List.mem_cons_self).1

end TreeEdit
