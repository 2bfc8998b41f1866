import TreeEdit.Failure
import TreeEdit.Source.Assemble

/-!
# Loading programs

A program comes as the bytes of a source text, or as a memory that holds its instructions. A memory
whose length of instructions is not given has instructions up to its end. Nothing is checked about
the instructions themselves.
-/

namespace TreeEdit.Image

open Binary (Bytes)

/-- The program of a source text given by its bytes. -/
def ofSource (bytes : Bytes) : Except Failure Image :=
  match Text.Utf8.decode? bytes with
  | none => .error (.ofCause .sourceNotText)
  | some source => (Source.assemble source).mapError fun f => .during .assembling (.fault f)

/-- The program of a memory, with the place of its instructions. -/
def ofMemory (bytes : Bytes) (start : UInt32) (len : Option UInt32) : Except Failure Image :=
  if bytes.length > Text.Numeral.maxWord then
    .error (.ofCause (.tooLarge bytes.length))
  else
    match len with
    | some len => .ok ⟨bytes, start, len⟩
    | none =>
      if start.toNat ≤ bytes.length then .ok ⟨bytes, start, bytes.length.toUInt32 - start⟩
      else .error (.ofCause (.startBeyond start bytes.length))

end TreeEdit.Image
