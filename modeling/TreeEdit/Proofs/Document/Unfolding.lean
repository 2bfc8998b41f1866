import TreeEdit.Document.Markup
import TreeEdit.Proofs.Document.Forest

/-!
# Reading subtrees off a document

`Document.tree?` goes down as many steps as the document has nodes. In a forest that is enough
everywhere, so the bound can be forgotten: the subtree of a node is the node together with the
subtrees of its children. Markup and text content obey the same recursion, which comes to an end
because every way down does.

Main statements: `WellFormed.markup_of_element`, `WellFormed.textContent_of_element`, and their
companions for texts.
-/

namespace TreeEdit

/-! ## Lists of trees -/

namespace Tree

theorem markupAll_eq_flatMap (ts : List Tree) : markupAll ts = ts.flatMap markup := by
  induction ts with
  | nil => rfl
  | cons t ts ih => rw [markupAll, ih, List.flatMap_cons]

theorem contentAll_eq_flatMap (ts : List Tree) : contentAll ts = ts.flatMap content := by
  induction ts with
  | nil => rfl
  | cons t ts ih => rw [contentAll, ih, List.flatMap_cons]

end Tree

theorem flatMap_filterMap {α β γ : Type} (f : α → Option β) (g : β → List γ) (l : List α) :
    (l.filterMap f).flatMap g = l.flatMap fun a => ((f a).map g).getD [] := by
  induction l with
  | nil => rfl
  | cons a l ih =>
    rw [List.filterMap_cons, List.flatMap_cons, ← ih]
    cases f a <;> rfl

namespace Document

variable {κ : Type} {d : Document κ} {n : NodeId} {m : Node κ}

/-! ## No bound on the depth -/

/-- A node as a tree, when the trees of its children are known. -/
def growth (sub : NodeId → Option Tree) (n : Node κ) : Tree :=
  match n.content with
  | .text t => .text t
  | .element tag attributes _ => .element tag attributes.entries (n.children.filterMap sub)

theorem treeWithin_succ (depth : Nat) (id : NodeId) :
    d.treeWithin (depth + 1) id = (d.node? id).map (growth (d.treeWithin depth)) := rfl

/-- Going down deeper than the document has nodes finds nothing more. -/
theorem WellFormed.treeWithin_deeper (hd : d.WellFormed) {depth j : Nat} {a : NodeId}
    (ha : d.ancestor? j n = some a) (hj : d.size ≤ j + depth) :
    d.treeWithin (depth + 1) n = d.treeWithin depth n := by
  -- every step down is a step further from `a`, and no way up is longer than the size
  induction depth generalizing n j with
  | zero =>
    have hn : ¬ d.Known n := by
      intro hn
      have hpos : 0 < d.size := Nat.zero_lt_of_lt hn
      have := hd.lt_size_of_ancestor? ha (by omega)
      omega
    rw [treeWithin_succ, node?_eq_none_iff.mpr hn]
    rfl
  | succ depth ih =>
    rw [treeWithin_succ, treeWithin_succ]
    cases hn : d.node? n with
    | none => rfl
    | some m =>
      have hsub : m.children.filterMap (d.treeWithin (depth + 1))
          = m.children.filterMap (d.treeWithin depth) := by
        refine List.filterMap_congr fun c hc => ih (j := j + 1) ?_ (by omega)
        rw [← children_of_node? hn] at hc
        rw [ancestor?_succ_of_parent? ((hd.linked n c).mp hc), ha]
      rw [Option.map_some, Option.map_some, growth, growth, hsub]

/-- The subtree of a node is the node with the subtrees of its children. -/
theorem WellFormed.tree?_eq (hd : d.WellFormed) (n : NodeId) :
    d.tree? n = (d.node? n).map (growth d.tree?) := by
  have h := hd.treeWithin_deeper (j := 0) (n := n) rfl (Nat.zero_add _).ge
  rw [tree?, ← h]
  rfl

/-! ## Markup -/

theorem toList_markup (d : Document κ) (n : NodeId) :
    (d.markup n).toList = ((d.tree? n).map Tree.markup).getD [] := by
  rw [markup, String.toList_ofList]

theorem WellFormed.markup_of_text (hd : d.WellFormed) (hn : d.node? n = some m) {t : String}
    (hm : m.content = .text t) :
    d.markup n = String.ofList (t.toList.flatMap Tree.escapeText) := by
  rw [markup, hd.tree?_eq, hn, Option.map_some, growth, hm]
  rfl

/-- The markup of an element: its tags, and between them the markup of its children. -/
theorem WellFormed.markup_of_element (hd : d.WellFormed) (hn : d.node? n = some m) {tag : String}
    {attributes : OrderedMap String String} {properties : Properties}
    (hm : m.content = .element tag attributes properties) :
    d.markup n = String.ofList (Tree.startTag tag attributes.entries
      ++ m.children.flatMap (fun c => (d.markup c).toList) ++ Tree.endTag tag) := by
  have hsub : Tree.markupAll (m.children.filterMap d.tree?)
      = m.children.flatMap fun c => (d.markup c).toList := by
    rw [Tree.markupAll_eq_flatMap, flatMap_filterMap]
    simp only [toList_markup]
  rw [markup, hd.tree?_eq, hn, Option.map_some, growth, hm]
  show String.ofList (Tree.startTag tag attributes.entries
    ++ Tree.markupAll (m.children.filterMap d.tree?) ++ Tree.endTag tag) = _
  rw [hsub]

/-! ## Text content -/

theorem toList_textContent (d : Document κ) (n : NodeId) :
    (d.textContent n).toList = ((d.tree? n).map Tree.content).getD [] := by
  rw [textContent, String.toList_ofList]

theorem WellFormed.textContent_of_text (hd : d.WellFormed) (hn : d.node? n = some m) {t : String}
    (hm : m.content = .text t) : d.textContent n = t := by
  rw [textContent, hd.tree?_eq, hn, Option.map_some, growth, hm]
  exact String.ofList_toList

/-- The text of an element is the text of its children. -/
theorem WellFormed.textContent_of_element (hd : d.WellFormed) (hn : d.node? n = some m)
    {tag : String} {attributes : OrderedMap String String} {properties : Properties}
    (hm : m.content = .element tag attributes properties) :
    d.textContent n = String.ofList (m.children.flatMap fun c => (d.textContent c).toList) := by
  have hsub : Tree.contentAll (m.children.filterMap d.tree?)
      = m.children.flatMap fun c => (d.textContent c).toList := by
    rw [Tree.contentAll_eq_flatMap, flatMap_filterMap]
    simp only [toList_textContent]
  rw [textContent, hd.tree?_eq, hn, Option.map_some, growth, hm]
  show String.ofList (Tree.contentAll (m.children.filterMap d.tree?)) = _
  rw [hsub]

end Document

end TreeEdit
