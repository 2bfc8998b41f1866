import TreeEdit.Instr.Decode
import TreeEdit.Machine.Exec

/-!
# Running ranges

A range is run instruction by instruction: each is read only when the ones before it have been
executed, so that a malformed instruction does not keep the ones before it from taking effect. The
first error ends the run.
-/

namespace TreeEdit

/-- A range of a memory, given by its first byte and its length. -/
structure Span where
  start : UInt32
  len : UInt32
  deriving DecidableEq, Repr

namespace Machine

open Binary

variable {δ ν β τ : Type}

/-- Runs what is left of a range. The answer is the number of instructions executed, those that
were `executed` before included. If `traced`, each instruction is noted before it is executed. -/
def runFrom (H : Host δ ν β) (mem : Bytes) (traced : Bool) (c : Cursor) (executed : Nat) :
    Act δ ν β τ Nat :=
  if c.atEnd then return executed
  else
    match _h : Instr.read c with
    | .error e _ => throw (.fault e)
    | .ok instr c' => do
      if traced then
        let depth := (← get).stack.depth
        onScene (Scene.note (.attempted c.offset instr depth))
      exec H mem instr
      runFrom H mem traced c' (executed + 1)
termination_by c.remaining
decreasing_by
  have := Instr.remaining_of_read _h
  have := Instr.encodedLength_pos instr
  omega

/-- Runs a range. The answer is the number of instructions executed. -/
def runRange (H : Host δ ν β) (mem : Bytes) (traced : Bool) (span : Span) : Act δ ν β τ Nat := do
  let c ← Step.ofExcept ((Cursor.ofRange mem span.start span.len).mapError .fault)
  runFrom H mem traced c 0

/-- Runs ranges one after another. The answer is the number of instructions executed in all. -/
def runAll (H : Host δ ν β) (mem : Bytes) (traced : Bool) : List Span → Act δ ν β τ Nat
  | [] => return 0
  | span :: spans => do
    let first ← runRange H mem traced span
    let later ← runAll H mem traced spans
    return first + later

end Machine

end TreeEdit
