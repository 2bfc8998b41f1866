import TreeEdit.Command.Arguments
import TreeEdit.Command.Outcome
import TreeEdit.Files.Input
import TreeEdit.Program.Load
import TreeEdit.Report

/-!
# The command that runs programs

The command loads a program, runs it on a new document, and shows the document and a count of what
the session holds. The configuration is the one that the environment asks for, as far as the
options do not say otherwise.
-/

namespace TreeEdit.Command

open Text.Numeral (decimal)

/-! ## Options -/

/-- What the command is told. -/
structure RunOptions where
  /-- The path of the program, or a dash for the standard input. -/
  input : String
  /-- Whether the input is a memory and not a source text. -/
  raw : Bool
  /-- The place of the first instruction in a memory. -/
  start : UInt32
  /-- The length of the instructions in a memory. -/
  len : Option UInt32
  /-- The tag of the seed. -/
  seed : String
  /-- How often the program is run. -/
  times : UInt32
  /-- Whether programs may leave slots on the stack. -/
  relaxedStack : Bool
  /-- Whether every instruction is noted. -/
  traced : Bool
  /-- The greatest depth of the stack. -/
  maxDepth : Option Nat
  /-- Whether the report is structured. -/
  json : Bool
  /-- How often more notices are asked for. -/
  verbosity : Nat
  deriving DecidableEq, Repr

namespace RunOptions

/-- The options of the command. -/
def specs : List OptionSpec :=
  [⟨"raw", none, .flag⟩, ⟨"start", none, .word⟩, ⟨"len", none, .word⟩, ⟨"seed", none, .text⟩,
    ⟨"repeat", none, .word⟩, ⟨"relaxed-stack", none, .flag⟩, ⟨"trace-ops", none, .flag⟩,
    ⟨"max-depth", none, .size⟩, ⟨"json", none, .flag⟩, ⟨"verbose", some 'v', .counter⟩]

/-- Reads the options. A place in a memory is only said of a memory. -/
def read (args : List String) : Except Ending RunOptions := do
  let a ← Arguments.read specs args
  if ¬ a.has "raw" ∧ ((a.value? "start").isSome ∨ (a.value? "len").isSome) then
    throw .misuse
  return {
    input := a.input.getD ""
    raw := a.has "raw"
    start := (a.word? "start").getD 0
    len := a.word? "len"
    seed := (a.value? "seed").getD "div"
    times := (a.word? "repeat").getD 1
    relaxedStack := a.has "relaxed-stack"
    traced := a.has "trace-ops"
    maxDepth := (a.value? "max-depth").bind sizeValue?
    json := a.has "json"
    verbosity := a.count "verbose" }

/-- The configuration for a run, where `config` is the one that the environment asks for. -/
def configure (o : RunOptions) (config : Config) : Config where
  strictStack := config.strictStack && !o.relaxedStack
  traced := config.traced || o.traced
  maxStackDepth := o.maxDepth <|> config.maxStackDepth

/-- How many notices the reader wants. Tracing asks for all of them. -/
def wantedVerbosity (o : RunOptions) : Nat :=
  if o.traced then max 3 o.verbosity else o.verbosity

/-- Loads the program. -/
def load (o : RunOptions) (bytes : Binary.Bytes) : Except Failure Image :=
  if o.raw then Image.ofMemory bytes o.start o.len else Image.ofSource bytes

/-- Shows a report. -/
def present (o : RunOptions) (r : Report) : Outcome :=
  if o.json then .success (r.view.pretty ++ "\n") ""
  else
    .success (r.html ++ "\n")
      ("✅ " ++ decimal r.applied ++ " application(s), " ++ decimal r.listeners ++
        " listener(s), " ++ decimal r.strings ++ " chaîne(s)\n")

/-- Runs the program that the bytes of the input hold. -/
def outcome (o : RunOptions) (config : Config) (bytes : Binary.Bytes) : Outcome :=
  match o.load bytes with
  | .error f => .failure f
  | .ok image =>
    let (report, journal) := Report.ofRuns image o.seed o.times.toNat (o.configure config)
    (Outcome.ofExcept (report.map o.present)).withJournal o.wantedVerbosity journal

/-- Runs the command. -/
def execute {m : Type → Type} [Monad m] (fs : Files.System m) (o : RunOptions) (config : Config) :
    m Outcome := do
  match ← fs.readInput o.input with
  | .error f => return .failure f
  | .ok bytes => return o.outcome config bytes

end RunOptions

end TreeEdit.Command
