import TreeEdit.Proofs.Document.Building
import TreeEdit.Proofs.Machine.Steps
import TreeEdit.Proofs.Program.Blocks

/-!
# Running the programs of blocks

`Builds` says of statements what they do to a machine whose stack ends on an element: whatever the
element has already and whatever is on the stack below it, it gets certain attributes and trees, and
the stack is as it was. That composes along the statements of a block (`builds_statements`), and
carries over to any code that stands for them (`runRange_of_builds`).
-/

namespace TreeEdit

open Binary (Bytes Cursor)
open Document (growth host Grown Raised)
open Machine (call follow onStack runFrom runRange)
open Statement (performAll)

variable {κ τ : Type} {wrap : ListenerId → κ} {sts sts' : List Statement}
  {settings settings' : List (String × String)} {trees trees' : List Tree}

/-! ## What statements build -/

/-- The machine stands on the element `n`: it is on top of the stack, which has no limit. -/
structure Machine.On (n : NodeId) (m : Machine (Document κ) NodeId Nat τ) : Prop where
  wellFormed : m.doc.WellFormed
  element : (m.doc.tag? n).isSome
  top : ∃ st, m.stack.slots = some n :: st
  limit : m.stack.limit = none

theorem Machine.On.grown {n : NodeId} {m m' : Machine (Document κ) NodeId Nat τ} (h : m.On n)
    (hg : Grown n settings trees m.doc m'.doc) (hs : m'.stack = m.stack) : m'.On n where
  wellFormed := hg.wellFormed
  element := hg.tag?_isSome h.wellFormed h.element
  top := by
    rw [hs]
    exact h.top
  limit := by rw [hs, h.limit]

/-- The statements set `settings` on the element that a machine stands on, add `trees` to its
children, and do nothing else. -/
def Builds (wrap : ListenerId → κ) (τ : Type) (sts : List Statement)
    (settings : List (String × String)) (trees : List Tree) : Prop :=
  ∀ (m : Machine (Document κ) NodeId Nat τ) (n : NodeId), m.On n →
    ∃ d', performAll (host wrap) sts m = .ok () { m with doc := d' } ∧
      Grown n settings trees m.doc d'

theorem performAll_append {δ ν β : Type} (H : Host δ ν β) (sts sts' : List Statement) :
    (performAll H (sts ++ sts') : Machine.Act δ ν β τ Unit)
      = (do performAll H sts; performAll H sts') := by
  induction sts with
  | nil => rfl
  | cons st sts ih =>
    rw [List.cons_append, performAll, performAll, ih, bind_assoc]

theorem builds_nil : Builds wrap τ [] [] [] :=
  fun m _ hm => ⟨m.doc, rfl, .refl hm.wellFormed⟩

theorem Builds.append (h : Builds wrap τ sts settings trees)
    (h' : Builds wrap τ sts' settings' trees') :
    Builds wrap τ (sts ++ sts') (settings ++ settings') (trees ++ trees') := by
  intro m n hm
  obtain ⟨d₁, h₁, hg₁⟩ := h m n hm
  obtain ⟨d₂, h₂, hg₂⟩ := h' { m with doc := d₁ } n (hm.grown hg₁ rfl)
  refine ⟨d₂, ?_, hg₁.trans hg₂⟩
  rw [performAll_append, Step.bind_ok h₁]
  exact h₂

theorem builds_setAttribute (name value : String) :
    Builds wrap τ [.setAttribute name value] [(name, value)] [] := by
  intro m n hm
  obtain ⟨st, hst⟩ := hm.top
  obtain ⟨d₁, h₁, hg₁⟩ := Document.grown_of_setAttribute hm.wellFormed hm.element name value
  have hcall : call (host wrap) (.setAttribute n name value) m = .ok () { m with doc := d₁ } :=
    Machine.call_of_ok h₁
  -- the live property that follows the attribute is no part of the tree
  have hfollow : ∃ d', follow (host wrap) n (Property.ofSetting name value) { m with doc := d₁ }
      = .ok () { m with doc := d' } ∧ Grown n [] [] d₁ d' := by
    cases Property.ofSetting name value with
    | none => exact ⟨d₁, rfl, .refl hg₁.wellFormed⟩
    | some property =>
      obtain ⟨d₂, h₂, hg₂⟩ := Document.grown_of_setProperty hg₁.wellFormed
        (hg₁.tag?_isSome hm.wellFormed hm.element) property
      exact ⟨d₂, Machine.call_of_ok h₂, hg₂⟩
  obtain ⟨d', h', hg'⟩ := hfollow
  refine ⟨d', ?_, hg₁.trans hg'⟩
  have hset : Statement.perform (host wrap) (.setAttribute name value) m
      = .ok () { m with doc := d' } := by
    rw [Statement.perform, Step.bind_ok (Machine.topNode_of_slots hst _), Step.bind_ok hcall]
    exact h'
  rw [performAll, Step.bind_ok hset]
  rfl

theorem perform_pushFirstChild {m : Machine (Document κ) NodeId Nat τ} {n : NodeId}
    {st : List (Option NodeId)} (htop : m.stack.slots = some n :: st)
    (hlimit : m.stack.limit = none) :
    Statement.perform (host wrap) .pushFirstChild m
      = .ok () (m.withSlots (m.doc.firstChild? n :: m.stack.slots)) := by
  rw [Statement.perform, Machine.exec, Step.bind_ok (Machine.topNode_of_slots htop _),
    Step.get_bind]
  exact Machine.push_of_no_limit hlimit _

theorem builds_visit : Builds wrap τ [.pushFirstChild, .pop] [] [] := by
  intro m n hm
  obtain ⟨st, hst⟩ := hm.top
  refine ⟨m.doc, ?_, .refl hm.wellFormed⟩
  rw [performAll, Step.bind_ok (perform_pushFirstChild hst hm.limit)]
  rfl

/-- The machine on another document, with the node `x` on top of its stack. -/
def Machine.onNew (m : Machine (Document κ) NodeId Nat τ) (x : NodeId) (d : Document κ) :
    Machine (Document κ) NodeId Nat τ :=
  { m.withSlots (some x :: m.stack.slots) with doc := d }

/-- A statement that makes a node puts it on top of the stack. -/
theorem perform_create {m : Machine (Document κ) NodeId Nat τ} (hd : m.doc.WellFormed)
    (hlimit : m.stack.limit = none) (content : Content) {c : HostCall NodeId Nat .node}
    (hc : (host wrap).perform c = Document.allocate content) :
    ∃ d₁, (do
        let node ← call (host wrap) c
        onStack (Stack.push (some node)) : Machine.Act _ NodeId Nat τ Unit) m
          = .ok () (m.onNew ⟨m.doc.size⟩ d₁) ∧
      Raised ⟨m.doc.size⟩ (growth (fun _ => none) (.detached content : Node κ)) m.doc d₁ := by
  obtain ⟨d₁, h₁, hr⟩ := Document.raised_of_allocate hd content
  refine ⟨d₁, ?_, hr⟩
  have hcall : call (host wrap) c m = .ok ⟨m.doc.size⟩ { m with doc := d₁ } :=
    Machine.call_of_ok (by rw [hc, h₁])
  rw [Step.bind_ok hcall]
  exact Machine.push_of_no_limit (m := { m with doc := d₁ }) hlimit _

/-- A new node that was filled on top of the stack is added to the element below it. -/
theorem performAll_appendChild {m : Machine (Document κ) NodeId Nat τ} {n x : NodeId} (hm : m.On n)
    {d₁ : Document κ} {t : Tree} (hr : Raised x t m.doc d₁) :
    ∃ d', performAll (host wrap) [.appendChild] (m.onNew x d₁) = .ok () { m with doc := d' } ∧
      Grown n [] [t] m.doc d' := by
  obtain ⟨st, hst⟩ := hm.top
  obtain ⟨d', hok, hg⟩ := hr.append hm.wellFormed hm.element
  refine ⟨d', ?_, hg⟩
  have hpop : onStack (Stack.popNode .appendChild) (m.onNew x d₁) = .ok x { m with doc := d₁ } :=
    Machine.popNode_of_slots rfl _
  have htop : onStack (Stack.topNode .appendChild) { m with doc := d₁ }
      = .ok n { m with doc := d₁ } := Machine.topNode_of_slots (m := { m with doc := d₁ }) hst _
  have hcall : call (host wrap) (.append n x) { m with doc := d₁ } = .ok () { m with doc := d' } :=
    Machine.call_of_ok hok
  have happend : Statement.perform (host wrap) .appendChild (m.onNew x d₁)
      = .ok () { m with doc := d' } := by
    rw [Statement.perform, Machine.exec, Step.bind_ok hpop, Step.bind_ok htop]
    exact hcall
  rw [performAll, Step.bind_ok happend]
  rfl

theorem builds_text (text : String) :
    Builds wrap τ [.createText text, .appendChild] [] [.text text] := by
  intro m n hm
  obtain ⟨d₁, h₁, hr⟩ := perform_create (c := .createText text) hm.wellFormed hm.limit _ rfl
  obtain ⟨d', h', hg⟩ := performAll_appendChild hm hr
  refine ⟨d', ?_, hg⟩
  rw [performAll, Statement.perform, Step.bind_ok h₁]
  exact h'

/-- What is built on a new element makes up its tree, which nothing else sees yet. -/
theorem Builds.raise (h : Builds wrap τ sts settings trees) (tag : String)
    {m : Machine (Document κ) NodeId Nat τ} (hd : m.doc.WellFormed)
    (hlimit : m.stack.limit = none) :
    ∃ d', performAll (host wrap) (.createElement tag :: sts) m
        = .ok () (m.onNew ⟨m.doc.size⟩ d') ∧
      Raised ⟨m.doc.size⟩ (.element tag (OrderedMap.condense settings) trees) m.doc d' := by
  obtain ⟨d₁, h₁, hr₁⟩ := perform_create (c := .createElement tag) hd hlimit _ rfl
  have hon : (m.onNew ⟨m.doc.size⟩ d₁).On ⟨m.doc.size⟩ :=
    ⟨hr₁.wellFormed, (Document.tag?_isSome_iff_tree? hr₁.wellFormed).mpr ⟨_, _, _, hr₁.tree⟩,
      ⟨_, rfl⟩, hlimit⟩
  obtain ⟨d₂, h₂, hg₂⟩ := h _ _ hon
  refine ⟨d₂, ?_, Raised.grow hr₁ hg₂⟩
  rw [performAll, Statement.perform, Step.bind_ok h₁]
  exact h₂

theorem Builds.element (h : Builds wrap τ sts settings trees) (tag : String) :
    Builds wrap τ (.createElement tag :: (sts ++ [.appendChild])) []
      [.element tag (OrderedMap.condense settings) trees] := by
  intro m n hm
  obtain ⟨d₁, h₁, hr₁⟩ := h.raise tag hm.wellFormed hm.limit
  obtain ⟨d', h', hg⟩ := performAll_appendChild hm hr₁
  refine ⟨d', ?_, hg⟩
  rw [← List.cons_append, performAll_append, Step.bind_ok h₁]
  exact h'

/-! ## What blocks build -/

namespace Block

mutual

theorem builds_statements (b : Block) :
    Builds wrap τ b.statements b.settings b.trees := by
  cases b with
  | elem tag kids =>
    rw [statements, trees]
    exact (builds_statementsAll kids).element tag
  | text t =>
    rw [statements, trees]
    exact builds_text t
  | attr name value =>
    rw [statements, trees]
    exact builds_setAttribute name value
  | visit =>
    rw [statements, trees]
    exact builds_visit

theorem builds_statementsAll (bs : List Block) :
    Builds wrap τ (statementsAll bs) (settingsAll bs) (treesAll bs) := by
  cases bs with
  | nil =>
    rw [statementsAll, treesAll]
    exact builds_nil
  | cons b bs =>
    rw [statementsAll, treesAll, settingsAll, List.flatMap_cons]
    exact (builds_statements b).append (builds_statementsAll bs)

end

end Block

/-! ## Ranges -/

/-- The list `k` times, one after another. -/
def copies {α : Type} (k : Nat) (l : List α) : List α :=
  (List.replicate k l).flatten

theorem copies_succ {α : Type} (k : Nat) (l : List α) : copies (k + 1) l = l ++ copies k l := by
  rw [copies, List.replicate_succ, List.flatten_cons, copies]

variable {mem : Bytes} {span : Span} {offset : Nat} {is : List Instr} {n : NodeId}
  {m : Machine (Document κ) NodeId Nat τ}

/-- A range that stands for statements does to the stack and the document what they do. -/
theorem runRange_of_performAll {m' : Machine (Document κ) NodeId Nat τ}
    (hspan : Cursor.ofRange mem span.start span.len = .ok ⟨offset, is.flatMap Instr.encode⟩)
    (hd : ∀ t, ∃ t', Denotes mem t is sts t') (traced : Bool)
    (h : performAll (host wrap) sts m = .ok () m') :
    ∃ executed m₁, runRange (host wrap) mem traced span m = .ok executed m₁ ∧
      m₁.stack = m'.stack ∧ m₁.doc = m'.doc := by
  obtain ⟨t', hd⟩ := hd m.strings
  have hrange : (runRange (host wrap) mem traced span : Machine.Act _ NodeId Nat τ Nat)
      = runFrom (host wrap) mem traced ⟨offset, is.flatMap Instr.encode⟩ 0 := by
    rw [runRange, hspan]
    rfl
  have hagree := Machine.runFrom_agree (H := host wrap) hd (.refl m) traced offset 0
  rcases Step.agree_discard_iff.mp hagree with
    ⟨executed, m₁, m₂, hrun, hok, t, halike⟩ | ⟨e, m₁, m₂, -, herror, -⟩
  · cases h.symm.trans hok
    refine ⟨executed, m₁, ?_, halike.stack, halike.scene.doc⟩
    rw [hrange, hrun]
  · cases h.symm.trans herror

/-- A range that stands for statements builds what they build. -/
theorem runRange_of_builds (h : Builds wrap τ sts settings trees)
    (hspan : Cursor.ofRange mem span.start span.len = .ok ⟨offset, is.flatMap Instr.encode⟩)
    (hd : ∀ t, ∃ t', Denotes mem t is sts t') (traced : Bool) (hm : m.On n) :
    ∃ executed m', runRange (host wrap) mem traced span m = .ok executed m' ∧
      m'.stack = m.stack ∧ Grown n settings trees m.doc m'.doc := by
  obtain ⟨d', hperform, hg⟩ := h m n hm
  obtain ⟨executed, m', hrun, hstack, hdoc⟩ := runRange_of_performAll hspan hd traced hperform
  refine ⟨executed, m', hrun, hstack, ?_⟩
  rw [hdoc]
  exact hg

end TreeEdit
