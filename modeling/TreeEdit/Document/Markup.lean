import TreeEdit.Document.Basic

/-!
# Documents as markup

`Document.tree?` reads the subtree of a node off the store, as a value of its own that knows nothing
of names, parents and handlers. A tree is written as markup with an end tag for every element.
Ampersands and angle brackets are escaped everywhere, quotes inside attribute values, so that no
text is taken for markup.
-/

namespace TreeEdit

/-- A subtree of a document. -/
inductive Tree
  /-- An element with its attributes in order. -/
  | element (tag : String) (attributes : List (String × String)) (children : List Tree)
  /-- A text. -/
  | text (text : String)
  deriving Repr, Inhabited

namespace Tree

/-! ## Markup -/

/-- How one character of a text is written. -/
def escapeText : Char → List Char
  | '&' => "&amp;".toList
  | '<' => "&lt;".toList
  | '>' => "&gt;".toList
  | c => [c]

/-- How one character of an attribute value is written. -/
def escapeValue : Char → List Char
  | '"' => "&quot;".toList
  | c => escapeText c

/-- An attribute, after the blank that stands before it. -/
def attributeMarkup : String × String → List Char
  | (name, value) => ' ' :: name.toList ++ '=' :: '"' :: value.toList.flatMap escapeValue ++ ['"']

/-- The start tag of an element. -/
def startTag (tag : String) (attributes : List (String × String)) : List Char :=
  '<' :: tag.toList ++ attributes.flatMap attributeMarkup ++ ['>']

/-- The end tag of an element. -/
def endTag (tag : String) : List Char :=
  '<' :: '/' :: tag.toList ++ ['>']

mutual

/-- A tree as markup. -/
def markup : Tree → List Char
  | element tag attributes children =>
    startTag tag attributes ++ markupAll children ++ endTag tag
  | text t => t.toList.flatMap escapeText

/-- Trees as markup, one after another. -/
def markupAll : List Tree → List Char
  | [] => []
  | t :: ts => markup t ++ markupAll ts

end

/-! ## Text -/

mutual

/-- The texts of a tree, in order. -/
def content : Tree → List Char
  | element _ _ children => contentAll children
  | text t => t.toList

/-- The texts of trees, in order. -/
def contentAll : List Tree → List Char
  | [] => []
  | t :: ts => content t ++ contentAll ts

end

end Tree

namespace Document

variable {κ : Type}

/-- The subtree of a node, down to a depth below `depth`. -/
def treeWithin (d : Document κ) : Nat → NodeId → Option Tree
  | 0, _ => none
  | depth + 1, id =>
    (d.node? id).map fun n =>
      match n.content with
      | .text t => .text t
      | .element tag attributes _ =>
        .element tag attributes.entries (n.children.filterMap (d.treeWithin depth))

/-- The subtree of a node. No way down is longer than the document has nodes. -/
def tree? (d : Document κ) (id : NodeId) : Option Tree :=
  d.treeWithin d.size id

/-- The subtree of a node as markup; nothing for an unknown node. -/
def markup (d : Document κ) (id : NodeId) : String :=
  String.ofList (((d.tree? id).map Tree.markup).getD [])

/-- The texts in the subtree of a node, in order; nothing for an unknown node. -/
def textContent (d : Document κ) (id : NodeId) : String :=
  String.ofList (((d.tree? id).map Tree.content).getD [])

end Document

end TreeEdit
