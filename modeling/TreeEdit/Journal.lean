import TreeEdit.Error
import TreeEdit.Host.Basic
import TreeEdit.Instr.Basic

/-!
# The journal of a session

A session notes what happens to it: programs that were run or broken off, listeners that gave way to
newer ones, its own end, and, if it is told to, every instruction before its execution. A notice
keeps the facts as data. How urgent it is and how it is worded follows from its kind.
-/

namespace TreeEdit

open Text.Numeral (decimal)

/-! ## Urgency -/

/-- How urgent a notice is. -/
inductive Urgency
  | trace
  | debug
  | warning
  | error
  deriving DecidableEq, Repr

/-- The name of an urgency in a journal. -/
def Urgency.name : Urgency → String
  | trace => "TRACE"
  | debug => "DEBUG"
  | warning => "WARN"
  | error => "ERROR"

/-! ## Notices -/

/-- Something worth noting. -/
inductive Notice
  /-- An instruction is about to be executed, with that many slots on the stack. -/
  | attempted (offset : Nat) (instr : Instr) (depth : Nat)
  /-- A new listener takes the place of the one that the node had for this type of event. -/
  | replaced (node : NodeKey) (eventType : String)
  /-- All queued ranges were run. -/
  | applied (ranges executed : Nat)
  /-- The queued ranges were broken off. -/
  | interrupted (ranges : Nat) (error : Error)
  /-- The session is over; that many listeners were in use. -/
  | unmounted (listeners : Nat)
  deriving DecidableEq, Repr

namespace Notice

/-- The urgency of a notice. -/
def urgency : Notice → Urgency
  | attempted .. => .trace
  | replaced .. => .warning
  | applied .. => .debug
  | interrupted .. => .error
  | unmounted .. => .debug

/-- The wording of a notice, without its facts. -/
def message : Notice → String
  | attempted .. => "op"
  | replaced .. => "listener déjà présent, remplacé"
  | applied .. => "change-list appliquée"
  | interrupted .. => "application interrompue"
  | unmounted .. => "change-list démontée"

/-- The facts of a notice as texts, each with what it is called. -/
def facts : Notice → List (String × String)
  | attempted offset instr depth =>
    [("at", decimal offset), ("op", instr.render), ("depth", decimal depth)]
  | replaced node eventType => [("key", node.render), ("event_type", eventType)]
  | applied ranges executed => [("ranges", decimal ranges), ("executed", decimal executed)]
  | interrupted ranges e => [("ranges", decimal ranges), ("error", e.message)]
  | unmounted listeners => [("listeners", decimal listeners)]

/-- A notice on one line: its urgency, its wording and its facts. -/
def render (n : Notice) : String :=
  " ".intercalate
    (n.urgency.name :: n.message :: n.facts.map fun (name, fact) => name ++ "=" ++ fact)

end Notice

/-- The notices of a session, the earliest first. -/
abbrev Journal := Array Notice

end TreeEdit
