import TreeEdit.Binary.Zone
import TreeEdit.Fault
import TreeEdit.Instr.Basic
import TreeEdit.OrderedMap
import TreeEdit.Text.Utf8

/-!
# Programs under construction

A finished program is an `Image`: texts first, then the instructions, so that the places of texts
are final as soon as they are handed out. A `Builder` holds the two zones, which texts have which
string id, and the id that the next new text gets.

Ids given out by the builder rise from the first id on. An id that is given explicitly may be taken
from another text, which is then forgotten and gets a new id when it comes up again; an explicit id
at or above the next one moves the next one past it. After the greatest word has been given out, no
new id is left.

An `Emission` keeps the builder when it fails: what a failing step emitted before stays emitted.
-/

namespace TreeEdit

open Binary

/-- A finished program: its memory, and the range of its instructions. -/
structure Image where
  /-- The texts, then the instructions. -/
  bytes : Bytes
  /-- The offset of the first instruction. -/
  start : UInt32
  /-- The number of bytes of all instructions. -/
  len : UInt32
  deriving DecidableEq, Repr

/-- A program under construction. -/
structure Builder where
  /-- The texts, each filled up to whole words. -/
  data : Zone
  /-- The instructions. -/
  code : Zone
  /-- The texts that have a string id now. -/
  ids : OrderedMap String UInt32
  /-- The id for the next new text, if one is left. -/
  nextId : Option UInt32
  /-- The number of instructions and raw words emitted. -/
  count : Nat

/-- A computation that emits parts of a program. When it fails, the builder stays as it came to
be. -/
abbrev Emission := EStateM Fault Builder

namespace Builder

/-- The builder of an empty program whose first new string id is `first`. -/
def startingAt (first : UInt32) : Builder :=
  ⟨.empty, .empty, .empty, some first, 0⟩

/-- The builder of an empty program. -/
def empty : Builder :=
  startingAt 0

/-- The program as it stands. -/
def finish (b : Builder) : Image :=
  ⟨b.data.toList ++ b.code.toList, b.data.offset, b.code.offset⟩

/-! ## Single parts -/

/-- Stores a text. The answer is its place and its length in bytes. -/
def intern (text : String) : Emission (UInt32 × UInt32) := do
  let place := (← get).data.offset
  let bs := Text.Utf8.encode text
  modify fun b => { b with data := b.data.addPadded bs }
  return (place, bs.length.toUInt32)

/-- Emits words that count as one instruction. -/
def emitWords (ws : List UInt32) : Emission Unit :=
  modify fun b => { b with code := b.code.addWords ws, count := b.count + 1 }

/-- Emits an instruction. -/
def emitInstr (i : Instr) : Emission Unit :=
  emitWords i.words

/-! ## String ids -/

/-- The id after `id`, if there is one. -/
def successor? (id : UInt32) : Option UInt32 :=
  if id.toNat = Text.Numeral.maxWord then none else some (id + 1)

/-- The next new id after `id` has been given explicitly. -/
def nextAfter (id : UInt32) : Option UInt32 → Option UInt32
  | none => none
  | some next => if next ≤ id then successor? id else some next

/-- Remembers that `text` has `id` now. No other text has that id any more. -/
def assign (text : String) (id : UInt32) (b : Builder) : Builder :=
  { b with
    ids := (b.ids.filter fun e => e.2 ≠ id).put text id
    nextId := nextAfter id b.nextId }

/-- Stores `text` and emits the instruction that gives it `id`. -/
def addString (text : String) (id : UInt32) : Emission Unit := do
  let (ptr, len) ← intern text
  modify (assign text id)
  emitInstr (.addString ptr len id)

/-- The id of `text`. A text without one gets the next new id. -/
def stringId (text : String) : Emission UInt32 := do
  match (← get).ids.get? text with
  | some id => return id
  | none =>
    match (← get).nextId with
    | none => throw .idsExhausted
    | some id =>
      addString text id
      return id

end Builder

end TreeEdit
