import TreeEdit.Command.Disassemble
import TreeEdit.Command.Run

/-!
# The tools

The two commands under their names. A tool answers to `--version` and `--help` by itself.
-/

namespace TreeEdit.Command

/-- The version of the tools, and of the library they stand on. -/
def version : String := "0.1.0"

/-- How a tool introduces itself. -/
def banner (tool : String) : String :=
  tool ++ " (changelist-tools " ++ version ++ ")"

/-- The tools. -/
inductive Tool
  /-- Runs programs. -/
  | run
  /-- Shows programs. -/
  | disassemble
  deriving DecidableEq, Repr

namespace Tool

/-- The name of a tool. -/
def name : Tool → String
  | run => "changelist-run"
  | disassemble => "changelist-disasm"

/-- The tool with a name. -/
def ofName? (name : String) : Option Tool :=
  [run, disassemble].find? fun t => t.name = name

/-- The options of a tool. -/
def specs : Tool → List OptionSpec
  | run => RunOptions.specs
  | disassemble => DisassembleOptions.specs

/-- How an option is written. -/
def usageOf (spec : OptionSpec) : String :=
  match spec.arity with
  | .value _ => " [--" ++ spec.name ++ " <" ++ spec.name ++ ">]"
  | _ => " [--" ++ spec.name ++ "]"

/-- How a tool is called. -/
def usage (t : Tool) : String :=
  banner t.name ++ "\n" ++ t.name ++ String.join (t.specs.map usageOf) ++ " <input>\n"

/-- What a tool does when reading its arguments ends early. -/
def onEnding (t : Tool) : Ending → Outcome
  | .misuse => .misuse
  | .version => .success (t.name ++ " " ++ version ++ "\n") ""
  | .help => .success t.usage ""

/-- Runs a tool. `setting` looks the settings of the environment up. -/
def execute {m : Type → Type} [Monad m] (fs : Files.System m) (setting : String → Option String)
    (t : Tool) (args : List String) : m Outcome :=
  match t with
  | run =>
    match RunOptions.read args with
    | .ok o => o.execute fs (Config.ofEnvironment setting)
    | .error e => return t.onEnding e
  | disassemble =>
    match DisassembleOptions.read args with
    | .ok o => o.execute fs
    | .error e => return t.onEnding e

end Tool

end TreeEdit.Command
