import TreeEdit.Instr.Decode
import TreeEdit.OrderedMap
import TreeEdit.Text.Quoted

/-!
# Listings

A listing shows a range of instructions for reading: a header, then a line for each instruction with
its offset. Where an instruction involves texts, its line ends with a preview of them. A string id
is shown by the text that an instruction of the same range has stored under it before, and by a
question mark if there is none. Texts are quoted, so that no text can add a line or end one.

A range has a listing if it decodes and every text it points at lies in the memory.
-/

namespace TreeEdit.Listing

open Binary
open Text.Numeral (decimal zeroFilled)

/-- The texts that a listing knows by their string ids. -/
abbrev Known := OrderedMap UInt32 String

/-- A text as a preview shows it. -/
def quoted (text : String) : String :=
  String.ofList (Text.Quoted.excerpt text.toList)

/-- What a preview shows for a string id. -/
def shown (known : Known) (id : UInt32) : String :=
  match known.get? id with
  | some text => quoted text
  | none => "?"

/-- The preview of an instruction, if it involves texts, and what is known after it. -/
def preview (mem : Bytes) (known : Known) : Instr → Except Fault (Option String × Known)
  | .setText ptr len | .createText ptr len => do
    return (some (quoted (← text mem ptr len)), known)
  | .addString ptr len id => do
    let t ← text mem ptr len
    return (some (quoted t), known.put id t)
  | .setAttribute name value => return (some (shown known name ++ "=" ++ shown known value), known)
  | .removeAttribute id | .createElement id | .newListener id _ _ | .updateListener id _ _
  | .removeListener id => return (some (shown known id), known)
  | .removeSelfAndNextSiblings | .replaceWith | .pushFirstChild | .popPushNextSibling | .pop
  | .appendChild => return (none, known)

/-- The line of an instruction at an offset. -/
def line (offset : Nat) (i : Instr) (preview : Option String) : String :=
  let start := zeroFilled 6 offset ++ " | " ++ i.render
  match preview with
  | some p => start ++ " ;; " ++ p ++ "\n"
  | none => start ++ "\n"

/-- The lines of instructions, in order. -/
def body (mem : Bytes) (known : Known) : List (Nat × Instr) → Except Fault (List String)
  | [] => .ok []
  | (offset, i) :: rest => do
    let (p, known) ← preview mem known i
    return line offset i p :: (← body mem known rest)

/-- The first line of a listing. -/
def header (start len : UInt32) : String :=
  "== change list @" ++ decimal start.toNat ++ " (+" ++ decimal len.toNat ++ " bytes) ==\n"

end Listing

/-- The listing of the range of `len` bytes at `start`. -/
def listing (mem : Binary.Bytes) (start len : UInt32) : Except Fault String := do
  let instrs ← Instr.decodeRange mem start len
  return String.join (Listing.header start len :: (← Listing.body mem .empty instrs))

end TreeEdit
