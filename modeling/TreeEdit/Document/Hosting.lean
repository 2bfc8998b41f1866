import TreeEdit.Document.Edit

/-!
# Documents as hosts

`Document.host` lets the interpreter work on a document. A run starts from the first child of the
container, and a call is the change of the same name. The callbacks of the document may be of any
type `κ` that has listeners in it, by way of `wrap`.
-/

namespace TreeEdit.Document

variable {κ : Type}

/-- A document as a host. -/
def host (wrap : ListenerId → κ) : Host (Document κ) NodeId Nat where
  key _ id := id.key
  rootSeed d container := d.firstChild? container
  firstChild d id := d.firstChild? id
  nextSibling d id := d.nextSibling? id
  extent d := d.size
  perform {k} call :=
    match k, call with
    | _, .setText id text => setText id text
    | _, .remove id => remove id
    | _, .replace old new => replace old new
    | _, .append parent child => append parent child
    | _, .setAttribute id name value => setAttribute id name value
    | _, .removeAttribute id name => removeAttribute id name
    | _, .setProperty id property => setProperty id property
    | _, .createText text => createText text
    | _, .createElement tag => createElement tag
    | _, .listen id eventType listener => listen id eventType (wrap listener)
    | _, .unlisten id _ binding => unlisten id binding

end TreeEdit.Document
