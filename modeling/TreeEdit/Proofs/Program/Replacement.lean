import TreeEdit.Proofs.Document.Renewal
import TreeEdit.Proofs.Program.Construction

/-!
# Programs that replace a first child

A program that replaces the first child of an element goes down to that child, builds a new element
above it on the stack, and puts that in its place (`Block.replacing`). Run from an element that has
a child, it renews the first one and does nothing else (`performAll_replacing`).

Blocks describe every tree that a document can show (`Tree.exists_kids`): all that such a tree has
to be is `Tidy`.
-/

namespace TreeEdit

open Document (host Raised Renewed)
open OrderedMap (condense)
open Statement (performAll)

/-! ## The blocks of a tree -/

namespace Tree

mutual

/-- No element of the tree has two attributes of the same name. -/
def Tidy : Tree → Prop
  | element _ attributes children => (attributes.map Prod.fst).Nodup ∧ TidyAll children
  | text _ => True

/-- All the trees are tidy. -/
def TidyAll : List Tree → Prop
  | [] => True
  | t :: ts => Tidy t ∧ TidyAll ts

end

mutual

/-- A block for a tree. -/
def block : Tree → Block
  | element tag attributes children =>
    .elem tag (attributes.map (fun p => .attr p.1 p.2) ++ blockAll children)
  | text t => .text t

/-- Blocks for trees, in order. -/
def blockAll : List Tree → List Block
  | [] => []
  | t :: ts => block t :: blockAll ts

end

end Tree

namespace Block

theorem treesAll_append (bs bs' : List Block) :
    treesAll (bs ++ bs') = treesAll bs ++ treesAll bs' := by
  induction bs with
  | nil => rfl
  | cons b bs ih => rw [List.cons_append, treesAll, treesAll, ih, List.append_assoc]

theorem treesAll_attrs (attributes : List (String × String)) :
    treesAll (attributes.map fun p => .attr p.1 p.2) = [] := by
  induction attributes with
  | nil => rfl
  | cons p attributes ih => rw [List.map_cons, treesAll, ih, trees, List.nil_append]

theorem settingsAll_attrs (attributes : List (String × String)) :
    settingsAll (attributes.map fun p => .attr p.1 p.2) = attributes := by
  induction attributes with
  | nil => rfl
  | cons p attributes ih =>
    rw [List.map_cons, settingsAll, List.flatMap_cons, ← settingsAll, ih]
    rfl

theorem settings_block (t : Tree) : t.block.settings = [] := by
  cases t <;> rw [Tree.block, settings]

theorem settingsAll_blockAll (ts : List Tree) : settingsAll (Tree.blockAll ts) = [] := by
  induction ts with
  | nil => rfl
  | cons t ts ih =>
    rw [Tree.blockAll, settingsAll, List.flatMap_cons, ← settingsAll, ih, settings_block]
    rfl

mutual

/-- The block of a tidy tree describes that tree. -/
theorem trees_block {t : Tree} (ht : t.Tidy) : t.block.trees = [t] := by
  cases t with
  | element tag attributes children =>
    obtain ⟨hnodup, hchildren⟩ := ht
    have hsettings : settingsAll (attributes.map (fun p => .attr p.1 p.2)
        ++ Tree.blockAll children) = attributes := by
      rw [settingsAll, List.flatMap_append, ← settingsAll, ← settingsAll, settingsAll_attrs,
        settingsAll_blockAll, List.append_nil]
    rw [Tree.block, trees, hsettings, OrderedMap.condense_of_nodup hnodup, treesAll_append,
      treesAll_attrs, treesAll_blockAll hchildren, List.nil_append]
  | text t => rw [Tree.block, trees]

theorem treesAll_blockAll {ts : List Tree} (hts : Tree.TidyAll ts) :
    treesAll (Tree.blockAll ts) = ts := by
  cases ts with
  | nil => rfl
  | cons t ts =>
    obtain ⟨ht, hts⟩ := hts
    rw [Tree.blockAll, treesAll, trees_block ht, treesAll_blockAll hts, List.singleton_append]

end

end Block

/-- Some blocks describe all that a tidy element is given. -/
theorem Tree.exists_kids {tag : String} {attributes : List (String × String)}
    {children : List Tree} (ht : (element tag attributes children).Tidy) :
    ∃ kids, (Block.elem tag kids).trees = [element tag attributes children] :=
  ⟨_, Block.trees_block ht⟩

/-! ## Replacing -/

namespace Block

/-- How to put a new element, which is given what the blocks describe, in the place of the first
child of the element on top of a stack. -/
def replacing (tag : String) (kids : List Block) : List Statement :=
  .pushFirstChild :: ((.createElement tag :: statementsAll kids) ++ [.replaceWith, .pop])

theorem plain_replacing (tag : String) (kids : List Block) :
    ∀ st ∈ replacing tag kids, st.Plain := by
  intro st hst
  rw [replacing, List.mem_cons, List.mem_append, List.mem_cons, List.mem_cons,
    List.mem_singleton] at hst
  rcases hst with rfl | (rfl | hst) | rfl | rfl
  case inr.inl.inr => exact plain_statementsAll kids st hst
  all_goals simp [Statement.Plain]

/-- The program for that. -/
def replacer (tag : String) (kids : List Block) : Builder :=
  Statement.program (replacing tag kids)

end Block

variable {κ τ : Type} {wrap : ListenerId → κ} {tag : String} {kids : List Block} {t : Tree}
  {m : Machine (Document κ) NodeId Nat τ} {n old new : NodeId} {st : List (Option NodeId)}

/-- The node on top of the stack takes the place of the one below it, and both leave the stack. -/
theorem performAll_replaceWith {rest : List NodeId} {d₁ : Document κ}
    (hr : Raised new t m.doc d₁) (hd : m.doc.WellFormed)
    (hn : m.doc.children n = old :: rest) (hlimit : m.stack.limit = none) :
    ∃ d', performAll (host wrap) [.replaceWith, .pop]
        ((m.withSlots (some old :: m.stack.slots)).onNew new d₁) = .ok () { m with doc := d' } ∧
      Renewed n t m.doc d' := by
  obtain ⟨d', hok, hswapped⟩ := hr.replace hd hn
  refine ⟨d', ?_, old, new, rest, hswapped⟩
  have hcall : Machine.call (host wrap) (.replace old new) { m with doc := d₁ }
      = .ok () { m with doc := d' } := Machine.call_of_ok hok
  have hpush : Machine.onStack (Stack.push (some new)) { m with doc := d' }
      = .ok () (m.onNew new d') := Machine.push_of_no_limit (m := { m with doc := d' }) hlimit _
  have hreplace : Statement.perform (host wrap) .replaceWith
      ((m.withSlots (some old :: m.stack.slots)).onNew new d₁) = .ok () (m.onNew new d') := by
    rw [Statement.perform, Machine.exec, Step.bind_ok (Machine.popNode_of_slots rfl _),
      Step.bind_ok (Machine.popNode_of_slots rfl _)]
    exact (Step.bind_ok hcall).trans hpush
  rw [performAll, Step.bind_ok hreplace]
  rfl

/-- The first child of the element on top of the stack is replaced, and nothing else happens. -/
theorem performAll_replacing (hd : m.doc.WellFormed) (htop : m.stack.slots = some n :: st)
    (hlimit : m.stack.limit = none) (hn : m.doc.children n ≠ [])
    (ht : (Block.elem tag kids).trees = [t]) :
    ∃ d', performAll (host wrap) (Block.replacing tag kids) m = .ok () { m with doc := d' } ∧
      Renewed n t m.doc d' := by
  obtain ⟨old, rest, hchildren⟩ := List.exists_cons_of_ne_nil hn
  have hpush : Statement.perform (host wrap) .pushFirstChild m
      = .ok () (m.withSlots (m.doc.firstChild? n :: m.stack.slots)) :=
    perform_pushFirstChild htop hlimit
  rw [Document.firstChild?, hchildren, List.head?_cons] at hpush
  have hbuilds : Builds wrap τ (Block.statementsAll kids) (Block.settingsAll kids)
      (Block.treesAll kids) := Block.builds_statementsAll kids
  obtain ⟨d₁, hbuild, hr⟩ :=
    hbuilds.raise tag (m := m.withSlots (some old :: m.stack.slots)) hd hlimit
  rw [Block.trees, List.singleton_inj] at ht
  rw [ht] at hr
  obtain ⟨d', hreplace, hrenewed⟩ := performAll_replaceWith (m := m) hr hd hchildren hlimit
  refine ⟨d', ?_, hrenewed⟩
  rw [Block.replacing, performAll, Step.bind_ok hpush, performAll_append, Step.bind_ok hbuild]
  exact hreplace

end TreeEdit
