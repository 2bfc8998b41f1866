import TreeEdit.Command.Arguments
import TreeEdit.Command.Outcome
import TreeEdit.Files.Input
import TreeEdit.Instr.View
import TreeEdit.Listing
import TreeEdit.Program.Load

/-!
# The command that shows programs

The command loads a program and shows its instructions, as a listing or as structured output, on the
standard output or in a file.
-/

namespace TreeEdit.Command

/-- What the command is told. -/
structure DisassembleOptions where
  /-- The path of the program, or a dash for the standard input. -/
  input : String
  /-- Whether the input is a source text and not a memory. -/
  source : Bool
  /-- The place of the first instruction in a memory. -/
  start : UInt32
  /-- The length of the instructions in a memory. -/
  len : Option UInt32
  /-- Whether the output is structured. -/
  json : Bool
  /-- The file for the output, if it is not the standard output. -/
  destination : Option String
  /-- How often more notices are asked for. -/
  verbosity : Nat
  deriving DecidableEq, Repr

namespace DisassembleOptions

/-- The options of the command. -/
def specs : List OptionSpec :=
  [⟨"asm", none, .flag⟩, ⟨"start", none, .word⟩, ⟨"len", none, .word⟩, ⟨"json", none, .flag⟩,
    ⟨"emit", none, .text⟩, ⟨"verbose", some 'v', .counter⟩]

/-- Reads the options. -/
def read (args : List String) : Except Ending DisassembleOptions := do
  let a ← Arguments.read specs args
  return {
    input := a.input.getD ""
    source := a.has "asm"
    start := (a.word? "start").getD 0
    len := a.word? "len"
    json := a.has "json"
    destination := a.value? "emit"
    verbosity := a.count "verbose" }

/-- Loads the program. A source text has its own place for the instructions. -/
def load (o : DisassembleOptions) (bytes : Binary.Bytes) : Except Failure Image :=
  if o.source then Image.ofSource bytes else Image.ofMemory bytes o.start o.len

/-- The structured output for a program. -/
def structured (image : Image) : Except Failure Json :=
  (Instr.viewRange image.bytes image.start image.len).mapError
    fun f => .during .decoding (.fault f)

/-- The listing for a program. -/
def listed (image : Image) : Except Failure String :=
  (listing image.bytes image.start image.len).mapError
    fun f => .during (.listing image.start image.len) (.fault f)

/-- The text that shows the program that the bytes of the input hold. -/
def text (o : DisassembleOptions) (bytes : Binary.Bytes) : Except Failure String := do
  let image ← o.load bytes
  if o.json then return (← structured image).pretty else listed image

/-- Runs the command. -/
def execute {m : Type → Type} [Monad m] (fs : Files.System m) (o : DisassembleOptions) :
    m Outcome := do
  match (← fs.readInput o.input) >>= o.text with
  | .error f => return .failure f
  | .ok text =>
    match o.destination with
    | none => return .success (line text) ""
    | some path =>
      let written ← fs.writeText path text
      return .ofExcept (written.map fun () => .success "" ("📝 Disasm → " ++ path ++ "\n"))

end DisassembleOptions

end TreeEdit.Command
