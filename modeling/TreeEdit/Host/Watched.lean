import TreeEdit.Host.Basic

/-!
# Hosts under watch

A watched host lists the calls that are made to it, in order, and may refuse some of them by their
number before they reach the document. A refused call is listed and counted like any other. Looking
at the document is not a call.
-/

namespace TreeEdit

variable {δ ν β : Type}

/-- A call together with the kind of its answer. -/
abbrev AnyCall (ν β : Type) := (k : Reply) × HostCall ν β k

/-- A document together with the calls that have been made to it. -/
structure Watched (δ ν β : Type) where
  /-- The document. -/
  doc : δ
  /-- The calls, the earliest first. -/
  calls : Array (AnyCall ν β)

/-- Watches a host. `refuse n` says whether and why the call with number `n` is refused; calls count
from 1. -/
def Host.watched (H : Host δ ν β) (refuse : Nat → Option HostError) :
    Host (Watched δ ν β) ν β where
  key w := H.key w.doc
  rootSeed w := H.rootSeed w.doc
  firstChild w := H.firstChild w.doc
  nextSibling w := H.nextSibling w.doc
  extent w := H.extent w.doc
  perform {k} call := fun w =>
    let calls := w.calls.push ⟨k, call⟩
    match refuse calls.size with
    | some e => .error e ⟨w.doc, calls⟩
    | none =>
      match H.perform call w.doc with
      | .ok a d => .ok a ⟨d, calls⟩
      | .error e d => .error e ⟨d, calls⟩

end TreeEdit
