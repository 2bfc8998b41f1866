import TreeEdit.Proofs.Machine.Moves

/-!
# How far a run reaches

A run starts on a child of a container. The nodes that it ever comes to were strictly below the
container when it began, or have been made since: looking for a child or a sibling does not lead
out of these, and no call links one of them to a node that is not, the container excepted.
`Confined` says so of a site; it also says what that means for all other nodes, which stay as they
were.

Main statement: `confined_of_moves`.
-/

namespace TreeEdit

open Document (host Effect)

variable {κ : Type} {wrap : ListenerId → κ} {d₀ d d' : Document κ} {k : Reply} {root n p : NodeId}
  {slot : Option NodeId} {st st' : List (Option NodeId)}

/-- The node was strictly below the container, or was not there. -/
def Document.Inside (d₀ : Document κ) (root n : NodeId) : Prop :=
  d₀.Below n root ∨ ¬ d₀.Known n

/-- A site that a run on the container `root` can come to when the document was `d₀` at first. -/
structure Confined (d₀ : Document κ) (root : NodeId) (s : Site κ) : Prop where
  wellFormed : s.doc.WellFormed
  size_le : d₀.size ≤ s.doc.size
  apart : ¬ d₀.Inside root root
  slots : ∀ n, some n ∈ s.slots → d₀.Inside root n
  links : ∀ n p, s.doc.parent? n = some p → (d₀.Inside root n ↔ d₀.Inside root p ∨ p = root)
  outside : ∀ n, ¬ d₀.Inside root n → n ≠ root → s.doc.node? n = d₀.node? n
  container : ∃ cs, s.doc.node? root = (d₀.node? root).map fun m => { m with children := cs }

theorem Document.WellFormed.not_inside_self (hd : d₀.WellFormed) (hroot : d₀.Known root) :
    ¬ d₀.Inside root root := by
  rintro (h | h)
  · exact hd.acyclic root h
  · exact h hroot

theorem Document.WellFormed.inside_iff (hd : d₀.WellFormed) (h : d₀.parent? n = some p) :
    d₀.Inside root n ↔ d₀.Inside root p ∨ p = root := by
  constructor
  · rintro (hn | hn)
    · obtain ⟨q, hq, hqr⟩ := Relation.TransGen.head'_iff.mp hn
      cases h.symm.trans hq
      rcases hqr.cases_head with heq | ⟨q', hq', hqr'⟩
      · exact .inr heq
      · exact .inl (.inl (.head' hq' hqr'))
    · exact absurd (Document.known_of_parent? h) hn
  · rintro ((hp | hp) | rfl)
    · exact .inl (.head h hp)
    · exact absurd (hd.known_parent h) hp
    · exact .inl (.single h)

namespace Confined

/-- At first a run has the first child of the container on its stack. -/
theorem start (hd : d₀.WellFormed) (hroot : d₀.Known root) :
    Confined d₀ root ⟨d₀, [d₀.firstChild? root]⟩ where
  wellFormed := hd
  size_le := le_rfl
  apart := hd.not_inside_self hroot
  slots n hn := by
    rw [List.mem_singleton] at hn
    exact .inl (.single (hd.parent?_of_firstChild? hn.symm))
  links n p hp := hd.inside_iff hp
  outside n _ _ := rfl
  container := ⟨d₀.children root, (Document.map_children_self d₀ root).symm⟩

theorem withSlots (h : Confined d₀ root ⟨d, st⟩) (hst : ∀ n, some n ∈ st' → d₀.Inside root n) :
    Confined d₀ root ⟨d, st'⟩ :=
  { h with slots := hst }

theorem tail (h : Confined d₀ root ⟨d, slot :: st⟩) : Confined d₀ root ⟨d, st⟩ :=
  h.withSlots fun n hn => h.slots n (List.mem_cons_of_mem _ hn)

theorem cons (h : Confined d₀ root ⟨d, st⟩) (hslot : ∀ n, slot = some n → d₀.Inside root n) :
    Confined d₀ root ⟨d, slot :: st⟩ := by
  refine h.withSlots fun n hn => ?_
  rcases List.mem_cons.mp hn with hn | hn
  · exact hslot n hn.symm
  · exact h.slots n hn

theorem firstChild (h : Confined d₀ root ⟨d, some n :: st⟩) :
    Confined d₀ root ⟨d, d.firstChild? n :: some n :: st⟩ := by
  refine h.cons fun c hc => ?_
  have hp := h.wellFormed.parent?_of_firstChild? hc
  exact (h.links c n hp).mpr (.inl (h.slots n List.mem_cons_self))

theorem nextSibling (h : Confined d₀ root ⟨d, some n :: st⟩) :
    Confined d₀ root ⟨d, d.nextSibling? n :: st⟩ := by
  refine h.tail.cons fun s hs => ?_
  obtain ⟨p, hn, hp⟩ := h.wellFormed.parent?_of_nextSibling? hs
  exact (h.links s p hp).mpr ((h.links n p hn).mp (h.slots n List.mem_cons_self))

/-! ## Calls -/

/-- Work on nodes inside that makes no link but from a node inside to one inside or to the
container. -/
theorem frame {N : NodeId → Prop} {e : Option (NodeId × NodeId)} (h : Confined d₀ root ⟨d, st⟩)
    (he : Effect N e d d') (hN : ∀ n, N n → d₀.Inside root n)
    (hlink : ∀ x y, e = some (x, y) → d₀.Inside root x ∧ (d₀.Inside root y ∨ y = root)) :
    Confined d₀ root ⟨d', st⟩ := by
  -- a node outside has its parent outside, and its children too unless it is the container
  have known {n : NodeId} (hn : ¬ d₀.Inside root n) : d.Known n :=
    Nat.lt_of_lt_of_le (not_not.mp fun hk => hn (.inr hk)) h.size_le
  have still {n : NodeId} (hn : ¬ d₀.Inside root n) : ¬ N n := mt (hN n) hn
  have above {n : NodeId} (hn : ¬ d₀.Inside root n) (p : NodeId) (hp : d.parent? n = some p) :
      ¬ N p :=
    still fun hp' => hn ((h.links n p hp).mpr (.inl hp'))
  refine ⟨he.wellFormed, h.size_le.trans he.size_le, h.apart, h.slots, fun n p hp => ?_,
    fun n hn hr => ?_, ?_⟩
  · rcases he.links n p hp with hold | hnew
    · exact h.links n p hold
    · obtain ⟨hn, hp⟩ := hlink n p hnew
      exact iff_of_true hn hp
  · have below (c : NodeId) (hc : d.parent? c = some n) : ¬ N c := by
      refine still fun hin => ?_
      rcases (h.links c n hc).mp hin with hin | rfl
      · exact hn hin
      · exact hr rfl
    rw [he.frame n (known hn) (still hn) (above hn) below]
    exact h.outside n hn hr
  · obtain ⟨cs, hcs⟩ := h.container
    obtain ⟨cs', hcs'⟩ := he.bystander root (known h.apart) (still h.apart) (above h.apart)
    refine ⟨cs', ?_⟩
    rw [hcs', hcs, Option.map_map]
    rfl

theorem call (h : Confined d₀ root ⟨d, st⟩) {c : HostCall NodeId Nat k}
    {next : k.Of NodeId Nat → List (Option NodeId)} {a : k.Of NodeId Nat}
    (hp : Prompts d st c next) (hc : (host wrap).perform c d = .ok a d') :
    Confined d₀ root ⟨d', next a⟩ := by
  have he := Document.effect_of_perform h.wellFormed hc
  have new : d₀.Inside root ⟨d.size⟩ := .inr (Nat.not_lt.mpr h.size_le)
  have hN (n : NodeId) (hn : c.Names n) : d₀.Inside root n := h.slots n (hp.names hn)
  cases hp with
  | setText n text st =>
    refine h.frame he hN fun x y hxy => ?_
    cases hxy
    exact ⟨new, .inl (h.slots n List.mem_cons_self)⟩
  | setAttribute | removeAttribute | setProperty | listen | unlisten => exact h.frame he hN nofun
  | remove n st => exact h.nextSibling.frame he hN nofun
  | replace old new st =>
    have hst : Confined d₀ root ⟨d, some new :: st⟩ :=
      h.tail.tail.cons fun n hn => h.slots n (hn ▸ List.mem_cons_self)
    refine hst.frame he hN fun x y hxy => ?_
    obtain ⟨p, hold, hxy⟩ := Option.map_eq_some_iff.mp hxy
    cases hxy
    refine ⟨hst.slots new List.mem_cons_self, (h.links old y hold).mp ?_⟩
    exact h.tail.slots old List.mem_cons_self
  | append p c st =>
    refine h.tail.frame he hN fun x y hxy => ?_
    cases hxy
    exact ⟨h.slots c List.mem_cons_self, .inl (h.tail.slots p List.mem_cons_self)⟩
  | createText text | createElement tag =>
    refine (h.frame he hN nofun).cons fun n hn => ?_
    cases hc
    cases hn
    exact new

end Confined

theorem confined_of_move {s s' : Site κ} (h : Confined d₀ root s) (hm : Move wrap s s') :
    Confined d₀ root s' := by
  cases hm with
  | pop => exact h.tail
  | firstChild => exact h.firstChild
  | nextSibling => exact h.nextSibling
  | call hp hc => exact h.call hp hc

theorem confined_of_moves {s s' : Site κ} (h : Confined d₀ root s) (hm : Moves wrap s s') :
    Confined d₀ root s' := by
  induction hm with
  | refl => exact h
  | tail _ hlast ih => exact confined_of_move ih hlast

end TreeEdit
