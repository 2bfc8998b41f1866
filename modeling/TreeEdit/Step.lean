/-!
# Steps

A step works on a state and may fail; on failure the state stays as it came to be, nothing is rolled
back. Steps are `EStateM` computations. This module holds the few combinators that the parts of a
session share: a step on a part of the state, a step whose failure becomes its answer, and a
step that only answers.
-/

namespace TreeEdit.Step

variable {ε ε' σ ρ α : Type}

/-- A step on a part of the state. `get` finds the part and `put` writes it back. -/
def onPart (get : σ → ρ) (put : σ → ρ → σ) (x : EStateM ε ρ α) : EStateM ε σ α := fun s =>
  match x (get s) with
  | .ok a r => .ok a (put s r)
  | .error e r => .error e (put s r)

/-- A step that cannot fail: it answers how `x` ended, in the state that `x` came to. -/
def outcome (x : EStateM ε σ α) : EStateM ε' σ (Except ε α) := fun s =>
  match x s with
  | .ok a s' => .ok (.ok a) s'
  | .error e s' => .ok (.error e) s'

/-- The step that has an outcome and leaves the state alone. -/
def ofExcept (x : Except ε α) : EStateM ε σ α := fun s =>
  match x with
  | .ok a => .ok a s
  | .error e => .error e s

end TreeEdit.Step
