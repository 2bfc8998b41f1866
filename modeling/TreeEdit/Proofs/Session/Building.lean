import TreeEdit.Proofs.Program.Construction
import TreeEdit.Proofs.Session.Reached
import TreeEdit.Proofs.Session.Repetition
import TreeEdit.Report

/-!
# Building trees in a session

A program for blocks is applied to a session a number of times, each time on its own or all at once.
Both ways give the element that the runs start from what the blocks describe, as often as the
program is run, and a trial of the program shows the markup of that (`builds_of_reached`).

Between two applications the session is `Ready`: nothing of it but its document and its string table
matters to the next one, and the table may hold anything.
-/

namespace TreeEdit.Session

open Document (host Grown)
open OrderedMap (condense)
open Block (program settingsAll treesAll)

variable {δ ν β κ τ : Type} {wrap : ListenerId → κ} {bs : List Block} {k : Nat} {seed : NodeId}
  {s s' : Session (Document κ) NodeId Nat τ}

/-! ## Sessions between two applications -/

/-- The session is in use, its runs start on the element `seed` and a stack without limit, and the
program for `bs` is queued `k` times. -/
structure Ready (bs : List Block) (k : Nat) (seed : NodeId)
    (s : Session (Document κ) NodeId Nat τ) : Prop where
  active : s.lifecycle = .active
  pending : s.pending = List.replicate k (program bs).finish.span
  slots : s.stack.slots = []
  limit : s.stack.limit = none
  wellFormed : s.doc.WellFormed
  start : s.doc.firstChild? s.root = some seed
  element : (s.doc.tag? seed).isSome

/-- The session is ready for more, and its document came from `d` by giving `seed` what the blocks
describe, `k` times. -/
structure Built (bs : List Block) (k : Nat) (seed : NodeId) (d : Document κ)
    (s : Session (Document κ) NodeId Nat τ) : Prop where
  ready : Ready bs 0 seed s
  grown : Grown seed (copies k (settingsAll bs)) (copies k (treesAll bs)) d s.doc

theorem Ready.built (h : Ready bs 0 seed s) : Built bs 0 seed s.doc s :=
  ⟨h, .refl h.wellFormed⟩

theorem Built.trans {d : Document κ} (h : Built bs 1 seed d s) (h' : Built bs k seed s.doc s') :
    Built bs (k + 1) seed d s' := by
  have hone {α : Type} (l : List α) : copies 1 l = l := by
    rw [copies_succ, copies, List.replicate_zero, List.flatten_nil, List.append_nil]
  have hg := h.grown
  rw [hone, hone] at hg
  refine ⟨h'.ready, ?_⟩
  rw [copies_succ, copies_succ]
  exact hg.trans h'.grown

/-! ## What every run finds -/

/-- In the container `root`, the runs start on the element `seed`. -/
structure Sited (root seed : NodeId) (d : Document κ) : Prop where
  wellFormed : d.WellFormed
  start : d.firstChild? root = some seed
  element : (d.tag? seed).isSome

/-- The container is not worked on, so the next run starts from the same element. -/
theorem Sited.grown {root : NodeId} {settings : List (String × String)} {trees : List Tree}
    {d d' : Document κ} (h : Sited root seed d) (hg : Grown seed settings trees d d') :
    Sited root seed d' where
  wellFormed := hg.wellFormed
  start := by
    have hparent := h.wellFormed.parent?_of_firstChild? h.start
    have hne : root ≠ seed := by
      intro he
      rw [he] at hparent
      exact h.wellFormed.not_within_of_parent? hparent .refl
    rw [Document.firstChild?, Document.children,
      hg.others root (h.wellFormed.known_parent hparent) hne]
    exact h.start
  element := hg.tag?_isSome h.wellFormed h.element

theorem Ready.sited (h : Ready bs k seed s) : Sited s.root seed s.doc :=
  ⟨h.wellFormed, h.start, h.element⟩

theorem Ready.queued (h : Ready bs k seed s) : Queued (program bs).finish k s :=
  ⟨h.active, h.pending, h.slots, h.limit⟩

theorem Queued.ready (h : Queued (program bs).finish k s) (hs : Sited s.root seed s.doc) :
    Ready bs k seed s :=
  ⟨h.active, h.pending, h.slots, h.limit, hs.wellFormed, hs.start, hs.element⟩

theorem Times.grown {n : NodeId} {settings : List (String × String)} {trees : List Tree}
    {d d' : Document κ} (h : Times (Grown n settings trees) k d d') (hd : d.WellFormed) :
    Grown n (copies k settings) (copies k trees) d d' := by
  induction h with
  | zero => exact .refl hd
  | succ first _ ih =>
    rw [copies_succ, copies_succ]
    exact first.trans (ih first.wellFormed)

section

variable (wrap) (hlen : (program bs).finish.bytes.length < 2 ^ 32)
include hlen

theorem steady_program (root : NodeId) :
    Steady (host wrap) τ (program bs).finish seed (Sited root seed)
      (Grown seed (settingsAll bs) (treesAll bs)) := by
  intro m traced hstack hm
  obtain ⟨offset, is, hspan, hd⟩ := Block.denotes_program bs hlen
  have hbuilds : Builds wrap τ (Block.statementsAll bs) (settingsAll bs) (treesAll bs) :=
    Block.builds_statementsAll bs
  have hon : m.On seed := ⟨hm.wellFormed, hm.element, ⟨[], by rw [hstack]⟩, by rw [hstack]⟩
  obtain ⟨executed, m', hrun, hstack', hg⟩ := runRange_of_builds hbuilds hspan hd traced hon
  exact ⟨executed, m', hrun, hstack', hm.grown hg, hg⟩

/-! ## The two ways, and trials -/

theorem applyTogether_of_ready (h : Ready bs 0 seed s) (k : Nat) :
    ∃ s', applyTogether (host wrap) (program bs).finish k s = .ok () s' ∧
      Built bs k seed s.doc s' := by
  obtain ⟨s', hs', hqueued, hroot, hsited, hruns⟩ :=
    (steady_program wrap hlen s.root).applyTogether (fun _ hd => hd.start) h.sited h.queued k
  exact ⟨s', hs', hqueued.ready (hroot ▸ hsited), hruns.grown h.wellFormed⟩

theorem applyEach_of_ready (h : Ready bs 0 seed s) (k : Nat) :
    ∃ s', applyEach (host wrap) (program bs).finish k s = .ok () s' ∧
      Built bs k seed s.doc s' := by
  obtain ⟨s', hs', hqueued, hroot, hsited, hruns⟩ :=
    (steady_program wrap hlen s.root).applyEach (fun _ hd => hd.start) h.sited h.queued k
  exact ⟨s', hs', hqueued.ready (hroot ▸ hsited), hruns.grown h.wellFormed⟩

omit hlen in
theorem runOnce_of_ok {image : Image} {s s' : Report.Trial}
    (h : applyEach (host id) image 1 s = .ok () s') (round : Nat) :
    Report.runOnce image round s = .ok () s' := by
  rw [applyEach_one] at h
  show EStateM.adaptExcept _ (queue image.span >>= fun _ => apply (host id) image.bytes) s = _
  exact Step.adaptExcept_ok h _

theorem runTimes_of_ready {s : Report.Trial} (h : Ready bs 0 seed s) (done k : Nat) :
    ∃ s', Report.runTimes (program bs).finish done k s = .ok () s' ∧
      Built bs k seed s.doc s' := by
  induction k generalizing s done with
  | zero => exact ⟨s, rfl, h.built⟩
  | succ k ih =>
    obtain ⟨s₁, h₁, hb₁⟩ := applyEach_of_ready id hlen h 1
    obtain ⟨s₂, h₂, hb₂⟩ := ih hb₁.ready (done + 1)
    refine ⟨s₂, ?_, hb₁.trans hb₂⟩
    rw [Report.runTimes, Step.bind_ok (runOnce_of_ok h₁ _), h₂]

end

theorem newTrial_ready (bs : List Block) (tag : String) {config : Config}
    (hc : config.maxStackDepth = none) : Ready bs 0 ⟨1⟩ (Report.newTrial tag config) where
  active := rfl
  pending := rfl
  slots := rfl
  limit := hc
  wellFormed := (Document.withSeed_reachable "body" tag).wellFormed
  start := rfl
  element := rfl

/-! ## Trees as described -/

/-- The stack is empty, and what the blocks describe was given to the element `seed` of `d`, `n`
times: its attributes were set, and behind the children that it had, which have kept their trees,
there are new ones with the trees of the blocks. No other node of `d` has changed. -/
structure Planted (bs : List Block) (n : Nat) (seed : NodeId) (d : Document κ)
    (s : Session (Document κ) NodeId Nat τ) : Prop where
  slots : s.stack.slots = []
  children : ∃ new, s.doc.children seed = d.children seed ++ new ∧
    new.map s.doc.tree? = (copies n (treesAll bs)).map some ∧
    ∀ c ∈ d.children seed, s.doc.tree? c = d.tree? c
  tree : ∃ tag attributes children, d.tree? seed = some (.element tag attributes children) ∧
    s.doc.tree? seed = some (.element tag (condense (attributes ++ copies n (settingsAll bs)))
      (children ++ copies n (treesAll bs)))
  others : ∀ id, d.Known id → id ≠ seed → s.doc.node? id = d.node? id

theorem Built.planted {d : Document κ} (h : Built bs k seed d s) (hd : d.WellFormed)
    (hseed : (d.tag? seed).isSome) : Planted bs k seed d s where
  slots := h.ready.slots
  children := h.grown.map_tree?_new hd hseed
  tree := by
    obtain ⟨tag, attributes, children, ht⟩ := (Document.tag?_isSome_iff_tree? hd).mp hseed
    exact ⟨tag, attributes, children, ht, h.grown.tree tag attributes children ht⟩
  others := h.grown.others

/-- The program for some blocks can be emitted if it fits into a memory. However often it is
applied to a session, and in both ways to do that, it builds what the blocks describe; and a trial
of it shows the markup of that. -/
theorem builds_of_reached (h : Reached wrap s) (hactive : s.lifecycle = .active)
    (hpending : s.pending = []) (hlimit : s.stack.limit = none)
    (hstart : s.doc.firstChild? s.root = some seed) (hseed : (s.doc.tag? seed).isSome)
    (hlen : (program bs).finish.bytes.length < 2 ^ 32) (n : Nat) :
    Block.compile bs .empty = .ok () (program bs) ∧
      (∃ s', applyEach (host wrap) (program bs).finish n s = .ok () s' ∧
        Planted bs n seed s.doc s') ∧
      (∃ s', applyTogether (host wrap) (program bs).finish n s = .ok () s' ∧
        Planted bs n seed s.doc s') ∧
      ∀ tag config, config.maxStackDepth = none →
        ∃ r, (Report.ofRuns (program bs).finish tag n config).1 = .ok r ∧ r.applied = n ∧
          r.html = String.ofList (Tree.markup (.element tag (condense (copies n (settingsAll bs)))
            (copies n (treesAll bs)))) := by
  have hsettled := h.settled
  have hd := hsettled.reachable.wellFormed
  have hready : Ready bs 0 seed s :=
    ⟨hactive, hpending, hsettled.slots, hlimit, hd, hstart, hseed⟩
  refine ⟨(Block.program_ends bs hlen).1, ?_, ?_, fun tag config hc => ?_⟩
  · obtain ⟨s', hs', hb⟩ := applyEach_of_ready wrap hlen hready n
    exact ⟨s', hs', hb.planted hd hseed⟩
  · obtain ⟨s', hs', hb⟩ := applyTogether_of_ready wrap hlen hready n
    exact ⟨s', hs', hb.planted hd hseed⟩
  · obtain ⟨s', hs', hb⟩ := runTimes_of_ready hlen (newTrial_ready bs tag hc) 0 n
    have htree := hb.grown.tree tag [] [] rfl
    refine ⟨.ofTrial n s', ?_, rfl, ?_⟩
    · rw [Report.ofRuns, hs']
    · show String.ofList (((s'.doc.tree? ⟨1⟩).map Tree.markup).getD []) = _
      rw [htree]
      rfl

/-- A paragraph whose class is set twice, an attribute of the element around it, and a text. -/
def noticeBlocks : List Block :=
  [.elem "p" [.attr "class" "old", .text "a < b", .attr "class" "new"], .attr "lang" "fr",
    .visit, .text "été"]

/-- A session on a container whose only child is a section. -/
def onSection : Session (Document ListenerId) NodeId Nat Unit :=
  .start (.withSeed "main" "section") ⟨0⟩ .standard

/-- Queued twice, the program builds everything twice, and the section has its attribute once. -/
theorem noticeBlocks_built :
    Reached id onSection ∧ onSection.lifecycle = .active ∧ onSection.pending = [] ∧
      onSection.stack.limit = none ∧ onSection.doc.firstChild? onSection.root = some ⟨1⟩ ∧
      (onSection.doc.tag? ⟨1⟩).isSome ∧ (program noticeBlocks).finish.bytes.length < 2 ^ 32 ∧
      ∃ s', applyTogether (host id) (program noticeBlocks).finish 2 onSection = .ok () s' ∧
        s'.stack.slots = [] ∧ s'.doc.tree? ⟨1⟩ = some (.element "section" [("lang", "fr")]
          [.element "p" [("class", "new")] [.text "a < b"], .text "été",
            .element "p" [("class", "new")] [.text "a < b"], .text "été"]) := by
  have hreached : Reached id onSection :=
    .start (Document.withSeed_reachable "main" "section") Nat.zero_lt_two .standard
  have hlen : (program noticeBlocks).finish.bytes.length < 2 ^ 32 := by
    decide +kernel
  obtain ⟨-, -, ⟨s', hs', hplanted⟩, -⟩ :=
    builds_of_reached hreached rfl rfl rfl rfl rfl hlen 2
  refine ⟨hreached, rfl, rfl, rfl, rfl, rfl, hlen, s', hs', hplanted.slots, ?_⟩
  obtain ⟨tag, attributes, children, ht, ht'⟩ := hplanted.tree
  cases (show some (Tree.element "section" [] []) = _ from ht)
  rw [ht']
  rfl

end TreeEdit.Session
