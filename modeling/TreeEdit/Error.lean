import TreeEdit.Fault
import TreeEdit.Instr.Opcode

/-!
# Errors of a run

A run of a program ends at its first error: the program is malformed, it uses a string id, a stack
slot or a listener that is not there, it leaves the stack too deep, the session is over, or the
document refuses a call. What a document refuses is a `HostError`; the interpreter itself never
raises one. `Error.message` words an error for the reader of a report.
-/

namespace TreeEdit

open Text.Numeral (decimal)

/-! ## Refusals of a document -/

/-- Why a document refuses a call. -/
inductive HostError
  /-- No node has this index. -/
  | unknownNode (index : Nat)
  /-- Attributes and live properties belong to elements, and this node is a text. -/
  | attributesOfText (index : Nat)
  /-- A child is to be added to a text node. -/
  | childrenOfText
  /-- A child is to be added to itself or to one of its descendants. -/
  | appendCycle
  /-- A node is to be put in the place of itself or of one of its descendants. -/
  | replaceCycle
  /-- The node to replace is not among the children of its parent. -/
  | replaceIncoherent
  /-- A reason that the document states in its own words. -/
  | stated (words : String)
  deriving DecidableEq, Repr, Inhabited

/-- The wording of a refusal. -/
def HostError.message : HostError → String
  | unknownNode index => "nœud inconnu: " ++ decimal index
  | attributesOfText index => "nœud texte " ++ decimal index ++ " : pas d'attributs"
  | childrenOfText => "append_child: un nœud texte n'a pas d'enfants"
  | appendCycle => "append_child: cycle dans l'arbre"
  | replaceCycle => "replace_with: cycle dans l'arbre"
  | replaceIncoherent => "replace_with: arbre incohérent"
  | stated words => words

/-! ## Errors -/

/-- Why a run ends early. -/
inductive Error
  /-- The program is malformed. -/
  | fault (fault : Fault)
  /-- No text is stored under this string id. -/
  | missingString (id : UInt32)
  /-- The instruction needs a slot and the stack has none. -/
  | stackUnderflow (op : Opcode)
  /-- The instruction needs a node and the slot on top is absent. -/
  | absentNode (op : Opcode)
  /-- The stack may hold no more than `limit` slots. -/
  | stackOverflow (limit : Nat)
  /-- More than the first slot is left on the stack when the program ends. -/
  | unbalancedStack (depth : Nat)
  /-- The node has no listener for this type of event. -/
  | missingListener (eventType : String)
  /-- The listener that an event came to has been taken off. -/
  | listenerRevoked (eventType : String)
  /-- An event came to a listener and nobody receives events. -/
  | noTrampoline
  /-- The session is over. -/
  | unmounted
  /-- The document refuses a call. -/
  | host (error : HostError)
  deriving DecidableEq, Repr, Inhabited

/-- The wording of an error. -/
def Error.message : Error → String
  | fault f => "décodage: " ++ f.message
  | missingString id => "chaîne inconnue: id " ++ decimal id.toNat
  | stackUnderflow op => "pile vide pendant " ++ op.mnemonic
  | absentNode op => "nœud absent sur la pile pendant " ++ op.mnemonic
  | stackOverflow limit => "pile pleine: limite " ++ decimal limit
  | unbalancedStack depth => "pile déséquilibrée en fin d'application: profondeur " ++ decimal depth
  | missingListener eventType => "aucun listener `" ++ eventType ++ "` sur ce nœud"
  | listenerRevoked eventType => "listener `" ++ eventType ++ "` invoqué après son retrait"
  | noTrampoline => "aucun trampoline d'événements installé"
  | unmounted => "change-list démontée"
  | host e => "hôte: " ++ e.message

end TreeEdit
