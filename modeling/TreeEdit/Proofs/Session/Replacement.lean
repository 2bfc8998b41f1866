import TreeEdit.Proofs.Document.Reachable
import TreeEdit.Proofs.Program.Replacement
import TreeEdit.Proofs.Session.Repetition

/-!
# Replacing a first child in a session

A program for a new first child is applied to a session a number of times. Every time, other nodes
are new, the string table holds more than before, and what was built the last time is thrown out
again; but what is read off the element is the same after any number of applications
(`renews_of_reachable`). Nothing is asked of the string table and of the listeners.
-/

namespace TreeEdit.Session

open Block (replacing replacer)
open Document (host Renewed)

variable {κ τ : Type} {wrap : ListenerId → κ} {tag : String} {kids : List Block} {t : Tree}
  {root seed : NodeId} {d d' : Document κ} {k : Nat}

/-! ## What every run finds -/

/-- In the container `root`, the runs start on the element `seed`, which has a child. -/
structure Based (root seed : NodeId) (d : Document κ) : Prop where
  wellFormed : d.WellFormed
  start : d.firstChild? root = some seed
  child : d.children seed ≠ []

theorem Based.renewed (h : Based root seed d) (hr : Renewed seed t d d') : Based root seed d' where
  wellFormed := hr.wellFormed
  start := by
    obtain ⟨old, new, rest, hr⟩ := hr
    have hparent := h.wellFormed.parent?_of_firstChild? h.start
    rw [Document.firstChild?, hr.children_of_not_within h.wellFormed
      (h.wellFormed.known_parent hparent) (h.wellFormed.not_within_of_parent? hparent)]
    exact h.start
  child := hr.children_ne_nil

theorem steady_replacing (ht : (Block.elem tag kids).trees = [t])
    (hlen : (replacer tag kids).finish.bytes.length < 2 ^ 32) :
    Steady (host wrap) τ (replacer tag kids).finish seed (Based root seed) (Renewed seed t) := by
  intro m traced hstack hm
  obtain ⟨offset, is, hspan, hd⟩ :=
    Statement.denotes_program (Block.plain_replacing tag kids) hlen
  have htop : m.stack.slots = [some seed] := by rw [hstack]
  have hlimit : m.stack.limit = none := by rw [hstack]
  obtain ⟨d', hperform, hr⟩ := performAll_replacing hm.wellFormed htop hlimit hm.child ht
  obtain ⟨executed, m', hrun, hstack', hdoc⟩ := runRange_of_performAll hspan hd traced hperform
  refine ⟨executed, m', hrun, hstack', ?_, ?_⟩
  · rw [hdoc]
    exact hm.renewed hr
  · rw [hdoc]
    exact hr

/-- Only the last of the new subtrees is left. -/
theorem Times.renewed (h : Times (Renewed seed t) (k + 1) d d') (hd : d.WellFormed) :
    Renewed seed t d d' := by
  induction k generalizing d with
  | zero =>
    obtain _ | ⟨first, rest⟩ := h
    cases rest
    exact first
  | succ k ih =>
    obtain _ | ⟨first, rest⟩ := h
    exact first.trans hd (ih rest first.wellFormed)

/-! ## Applications -/

/-- The stack is empty. The element `seed` of `d` has a new first child, which heads the tree `t`,
for the one that it had, and nothing else has changed. -/
structure Supplanted (t : Tree) (seed : NodeId) (d : Document κ)
    (s : Session (Document κ) NodeId Nat τ) : Prop where
  slots : s.stack.slots = []
  renewed : Renewed seed t d s.doc
  tree : ∃ tag attributes first others,
    d.tree? seed = some (.element tag attributes (first :: others)) ∧
      s.doc.tree? seed = some (.element tag attributes (t :: others))

theorem supplanted_of_renewed {s : Session (Document κ) NodeId Nat τ} (hslots : s.stack.slots = [])
    (hr : Renewed seed t d s.doc) (hd : d.WellFormed) : Supplanted t seed d s where
  slots := hslots
  renewed := hr
  tree := by
    obtain ⟨old, new, rest, hr⟩ := hr
    have hseed : (d.tag? seed).isSome := hd.bearing old seed (hr.parent?_old hd)
    obtain ⟨tag, attributes, children, ht⟩ := (Document.tag?_isSome_iff_tree? hd).mp hseed
    obtain ⟨first, others, rfl, ht'⟩ := hr.tree?_eq hd ht
    exact ⟨tag, attributes, first, others, ht, ht'⟩

/-- Any element tree whose elements have no attribute twice can be described by blocks. The program
that replaces the first child of the seed by it can be emitted if it fits into a memory, and
applying it replaces exactly that child. However often it is applied, and in both ways to do that,
the markup of the seed is the same as after the first time. -/
theorem renews_of_reachable {s : Session (Document κ) NodeId Nat τ}
    {attributes : List (String × String)} {children : List Tree}
    (ht : (Tree.element tag attributes children).Tidy) (hdoc : s.doc.Reachable)
    (hactive : s.lifecycle = .active) (hpending : s.pending = []) (hslots : s.stack.slots = [])
    (hlimit : s.stack.limit = none) (hstart : s.doc.firstChild? s.root = some seed)
    (hchild : s.doc.children seed ≠ []) :
    (∃ kids, (Block.elem tag kids).trees = [.element tag attributes children]) ∧
      ∀ kids, (Block.elem tag kids).trees = [.element tag attributes children] →
        (replacer tag kids).finish.bytes.length < 2 ^ 32 →
          (replacing tag kids).forM Statement.emit .empty = .ok () (replacer tag kids) ∧
          ∃ s₁, applyEach (host wrap) (replacer tag kids).finish 1 s = .ok () s₁ ∧
            Supplanted (.element tag attributes children) seed s.doc s₁ ∧
            ∀ n, ∀ x ∈ [applyEach (host wrap) (replacer tag kids).finish (n + 1),
                applyTogether (host wrap) (replacer tag kids).finish (n + 1)],
              ∃ s', x s = .ok () s' ∧
                Supplanted (.element tag attributes children) seed s.doc s' ∧
                s'.doc.markup seed = s₁.doc.markup seed := by
  refine ⟨Tree.exists_kids ht, fun kids hkids hlen => ?_⟩
  have hd := hdoc.wellFormed
  have hsteady : Steady (host wrap) τ (replacer tag kids).finish seed (Based s.root seed)
      (Renewed seed (.element tag attributes children)) := steady_replacing hkids hlen
  have hbased : Based s.root seed s.doc := ⟨hd, hstart, hchild⟩
  have hqueued : Queued (replacer tag kids).finish 0 s := ⟨hactive, hpending, hslots, hlimit⟩
  have hseed (d : Document κ) (h : Based s.root seed d) :
      (host wrap).rootSeed d s.root = some seed := h.start
  refine ⟨(Statement.program_ends (Block.plain_replacing tag kids) hlen).1, ?_⟩
  obtain ⟨s₁, h₁, hq₁, -, -, hr₁⟩ := hsteady.applyEach hseed hbased hqueued 1
  have hr₁ := hr₁.renewed hd
  refine ⟨s₁, h₁, supplanted_of_renewed hq₁.slots hr₁ hd, fun n x hx => ?_⟩
  obtain ⟨s', h', hq', -, -, hr'⟩ : ∃ s', x s = .ok () s' ∧
      Queued (replacer tag kids).finish 0 s' ∧ s'.root = s.root ∧ Based s.root seed s'.doc ∧
      Times (Renewed seed (.element tag attributes children)) (n + 1) s.doc s'.doc := by
    rw [List.mem_cons, List.mem_singleton] at hx
    rcases hx with rfl | rfl
    · exact hsteady.applyEach hseed hbased hqueued (n + 1)
    · exact hsteady.applyTogether hseed hbased hqueued (n + 1)
  have hr' := hr'.renewed hd
  exact ⟨s', h', supplanted_of_renewed hq'.slots hr' hd, hr₁.markup_eq hd hr'⟩

/-- A section with a heading and a text. -/
def headedSection : Document ListenerId :=
  Step.after (do
    Document.append ⟨1⟩ (← Document.createElement "h1")
    Document.append ⟨1⟩ (← Document.createText "end")) (Document.withSeed "main" "section")

/-- A session on the container of that section, whose string table has an entry of old. -/
def onHeadedSection : Session (Document ListenerId) NodeId Nat Unit :=
  { start headedSection ⟨0⟩ .standard with strings := StringTable.empty.add "h1" 0 }

/-- Applied three times, the program has replaced the heading by one box, and the text is left. -/
theorem renews_of_reachable_onHeadedSection :
    (Tree.element "div" [("class", "box")] [.text "x"]).Tidy ∧
      onHeadedSection.doc.Reachable ∧ onHeadedSection.lifecycle = .active ∧
      onHeadedSection.pending = [] ∧ onHeadedSection.stack.slots = [] ∧
      onHeadedSection.stack.limit = none ∧
      onHeadedSection.doc.firstChild? onHeadedSection.root = some ⟨1⟩ ∧
      onHeadedSection.doc.children ⟨1⟩ ≠ [] ∧
      ∃ s', applyEach (host id)
          (replacer "div" [.attr "class" "box", .text "x"]).finish 3 onHeadedSection = .ok () s' ∧
        s'.doc.tree? ⟨1⟩ = some (.element "section" []
          [.element "div" [("class", "box")] [.text "x"], .text "end"]) := by
  have htidy : (Tree.element "div" [("class", "box")] [.text "x"]).Tidy :=
    ⟨by decide, trivial, trivial⟩
  have hreach : headedSection.Reachable := by
    have h₁ := (Document.withSeed_reachable "main" "section").perform id (.createElement "h1")
    have h₂ := (h₁.perform id (.append ⟨1⟩ ⟨2⟩)).perform id (.createText "end")
    exact h₂.perform id (.append ⟨1⟩ ⟨3⟩)
  have hlen : (replacer "div" [.attr "class" "box", .text "x"]).finish.bytes.length < 2 ^ 32 := by
    decide +kernel
  have hchild : onHeadedSection.doc.children ⟨1⟩ ≠ [] := List.cons_ne_nil _ _
  obtain ⟨-, happly⟩ :=
    renews_of_reachable (s := onHeadedSection) htidy hreach rfl rfl rfl rfl rfl hchild
  obtain ⟨-, s₁, -, -, hmore⟩ := happly [.attr "class" "box", .text "x"] rfl hlen
  obtain ⟨s', h', hs', -⟩ := hmore 2 _ List.mem_cons_self
  refine ⟨htidy, hreach, rfl, rfl, rfl, rfl, rfl, hchild, s', h', ?_⟩
  obtain ⟨tag, attributes, first, others, htree, htree'⟩ := hs'.tree
  cases (show some (Tree.element "section" [] [.element "h1" [] [], .text "end"]) = _ from htree)
  exact htree'

end TreeEdit.Session
