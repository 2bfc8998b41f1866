import TreeEdit.Error

/-!
# The stack of a run

The slots of the stack hold a node or nothing: an instruction that looks for a child or a sibling
pushes what it finds, even if that is nothing, and only an instruction that needs a node fails on an
absent one. The stack may have a limit on its depth. Taking an absent node off uses the slot up even
though it fails.
-/

namespace TreeEdit

/-- A stack of nodes of type `ν`, each of which may be absent. -/
structure Stack (ν : Type) where
  /-- The slots, the top first. -/
  slots : List (Option ν)
  /-- The greatest depth, if there is one. -/
  limit : Option Nat
  deriving DecidableEq, Repr

namespace Stack

variable {ν : Type}

/-- The stack without slots. -/
def empty (limit : Option Nat) : Stack ν :=
  ⟨[], limit⟩

/-- The number of slots. -/
def depth (s : Stack ν) : Nat :=
  s.slots.length

/-- Whether there is no slot. -/
def isEmpty (s : Stack ν) : Bool :=
  s.slots.isEmpty

/-- The stack with the same limit and without slots. -/
def clear (s : Stack ν) : Stack ν :=
  empty s.limit

/-- Pushes a slot. -/
def push (slot : Option ν) : EStateM Error (Stack ν) Unit := fun s =>
  match s.limit with
  | some limit =>
    if s.depth < limit then .ok () { s with slots := slot :: s.slots }
    else .error (.stackOverflow limit) s
  | none => .ok () { s with slots := slot :: s.slots }

/-- Takes a slot off for the instruction `op`. -/
def pop (op : Opcode) : EStateM Error (Stack ν) (Option ν) := fun s =>
  match s.slots with
  | slot :: rest => .ok slot { s with slots := rest }
  | [] => .error (.stackUnderflow op) s

/-- Takes a node off for the instruction `op`. -/
def popNode (op : Opcode) : EStateM Error (Stack ν) ν := do
  match ← pop op with
  | some node => return node
  | none => throw (.absentNode op)

/-- The slot on top, for the instruction `op`. -/
def top (op : Opcode) : EStateM Error (Stack ν) (Option ν) := fun s =>
  match s.slots with
  | slot :: _ => .ok slot s
  | [] => .error (.stackUnderflow op) s

/-- The node on top, for the instruction `op`. -/
def topNode (op : Opcode) : EStateM Error (Stack ν) ν := do
  match ← top op with
  | some node => return node
  | none => throw (.absentNode op)

/-! ## What the steps do -/

theorem push_of_room {s : Stack ν} (h : ∀ limit, s.limit = some limit → s.depth < limit)
    (slot : Option ν) : push slot s = .ok () { s with slots := slot :: s.slots } := by
  obtain ⟨slots, limit⟩ := s
  cases limit with
  | none => rfl
  | some limit => exact if_pos (h limit rfl)

theorem push_of_full {s : Stack ν} {limit : Nat} (h : s.limit = some limit) (hd : limit ≤ s.depth)
    (slot : Option ν) : push slot s = .error (.stackOverflow limit) s := by
  simp only [push, h]
  exact if_neg (Nat.not_lt.mpr hd)

end Stack

end TreeEdit
