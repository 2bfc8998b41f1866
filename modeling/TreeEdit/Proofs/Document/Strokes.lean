import TreeEdit.Document.Hosting
import TreeEdit.Proofs.Steps

/-!
# What calls about nodes are made of

The calls about nodes and their places look at nodes, write links, put a text where a text was, and
make nodes; all else that they do is to choose. So what leads along these few strokes leads along
each of the calls, whether it is done or refused (`perform_leads`).
-/

namespace TreeEdit

open Step (Chains Leads)

/-- The call is about nodes and their places in the tree: it touches no attributes, no live
properties and no listeners. -/
def HostCall.Shapes {ν β : Type} {k : Reply} : HostCall ν β k → Prop
  | .setAttribute .. | .removeAttribute .. | .setProperty .. | .listen .. | .unlisten .. => False
  | _ => True

/-- The call touches no attributes and no live properties. -/
def HostCall.Plain {ν β : Type} {k : Reply} : HostCall ν β k → Prop
  | .setAttribute .. | .removeAttribute .. | .setProperty .. => False
  | _ => True

theorem HostCall.Shapes.plain {ν β : Type} {k : Reply} {c : HostCall ν β k} (h : c.Shapes) :
    c.Plain := by
  cases c <;> trivial

/-- What a node contains that was just made. -/
inductive Content.Bare : Content → Prop
  | element (tag : String) : Bare (.element tag .empty .untouched)
  | text (text : String) : Bare (.text text)

namespace Document

variable {κ : Type} {R : Document κ → Document κ → Prop}

/-- `R` leads along the strokes of all calls about nodes and their places. -/
structure Strokes (R : Document κ → Document κ → Prop) : Prop where
  chains : Chains R
  relink : ∀ (id : NodeId) (f : Node κ → Node κ),
    (∀ n, (f n).content = n.content ∧ (f n).handlers = n.handlers) → Leads R (change id f)
  reword : ∀ (id : NodeId) (text : String),
    Leads R (change id fun n => { n with content := .text text })
  create : ∀ content : Content, content.Bare → Leads R (allocate content)

/-- Looking at a node leaves the document alone. -/
theorem look_leads (hR : Chains R) (id : NodeId) : Leads R (look id) := by
  intro d
  unfold Step.Ends look
  cases d.node? id with
  | none => exact hR.refl d
  | some n => exact hR.refl d

/-- Only elements are changed, and only in what they contain. -/
theorem changeElement_leads (hR : Chains R) (id : NodeId)
    (f : OrderedMap String String → Properties → OrderedMap String String × Properties)
    (h : ∀ content, Leads R (change id fun n => { n with content })) :
    Leads R (changeElement id f) := by
  refine (look_leads hR id).bind hR fun n => ?_
  split
  · exact Step.leads_throw hR _
  · exact h _

namespace Strokes

variable (h : Strokes R)

include h

theorem setParent (id : NodeId) (parent : Option NodeId) :
    Leads R (Document.setParent id parent) :=
  h.relink id _ fun _ => ⟨rfl, rfl⟩

theorem changeChildren (id : NodeId) (f : List NodeId → List NodeId) :
    Leads R (Document.changeChildren id f) :=
  h.relink id _ fun _ => ⟨rfl, rfl⟩

theorem remove (id : NodeId) : Leads R (Document.remove id) := by
  refine (look_leads h.chains id).bind h.chains fun n => ?_
  refine (h.setParent id none).bind h.chains fun _ => ?_
  split
  · exact h.changeChildren _ _
  · exact Step.leads_pure h.chains ()

theorem append (parent child : NodeId) : Leads R (Document.append parent child) := by
  refine (look_leads h.chains parent).bind h.chains fun n => ?_
  split
  · exact Step.leads_throw h.chains _
  · refine (Step.leads_get h.chains).bind h.chains fun d => ?_
    have linked : Leads R (do
        Document.remove child
        Document.changeChildren parent (· ++ [child])
        Document.setParent child (some parent)) :=
      (h.remove child).bind h.chains fun _ =>
        (h.changeChildren parent _).bind h.chains fun _ => h.setParent child _
    split
    · exact (Step.leads_throw h.chains _).bind h.chains fun _ => linked
    · exact linked

/-- What replacing a node comes to once nothing speaks against it. -/
theorem exchange (old new parent : NodeId) : Leads R (do
    Document.remove new
    match (← look parent).children.idxOf? old with
    | none => throw .replaceIncoherent
    | some place =>
      Document.changeChildren parent (·.set place new)
      Document.setParent old none
      Document.setParent new (some parent)) := by
  refine (h.remove new).bind h.chains fun _ => (look_leads h.chains parent).bind h.chains fun p => ?_
  split
  · exact Step.leads_throw h.chains _
  · exact (h.changeChildren parent _).bind h.chains fun _ =>
      (h.setParent old none).bind h.chains fun _ => h.setParent new _

theorem replace (old new : NodeId) : Leads R (Document.replace old new) := by
  refine (look_leads h.chains old).bind h.chains fun n => ?_
  split
  · exact Step.leads_pure h.chains ()
  · split
    · exact Step.leads_pure h.chains ()
    · refine (Step.leads_get h.chains).bind h.chains fun d => ?_
      split
      · exact (Step.leads_throw h.chains _).bind h.chains fun _ => h.exchange old new _
      · exact h.exchange old new _

theorem setText (id : NodeId) (text : String) : Leads R (Document.setText id text) := by
  refine (look_leads h.chains id).bind h.chains fun n => ?_
  split
  · exact h.reword id text
  · refine (h.changeChildren id _).bind h.chains fun _ => ?_
    refine (Step.leads_forM h.chains (fun child => h.setParent child none) _).bind h.chains
      fun _ => ?_
    split
    · exact (h.create _ (.text text)).bind h.chains fun t => h.append id t
    · exact Step.leads_pure h.chains ()

/-- What leads along the strokes leads along every call about nodes and their places. -/
theorem perform_leads (wrap : ListenerId → κ) {k : Reply} {c : HostCall NodeId Nat k}
    (hc : c.Shapes) : Leads R ((host wrap).perform c) := by
  cases c with
  | setText id text => exact h.setText id text
  | remove id => exact h.remove id
  | replace old new => exact h.replace old new
  | append parent child => exact h.append parent child
  | createText text => exact h.create _ (.text text)
  | createElement tag => exact h.create _ (.element tag)
  | setAttribute | removeAttribute | setProperty | listen | unlisten => exact hc.elim

end Strokes

end Document

end TreeEdit
