import TreeEdit.Text.Numeral

/-!
# Arguments of commands

The arguments of a command are read from left to right. `--name` stands for an option, `-x` for
one with a letter of its own, and letters may follow one another after one dash. A value stands in
the next argument or after an equals sign. `--` ends the options. All other arguments, a single dash
included, are inputs, of which a command takes one.

Reading ends early at the first argument that is wrong, or that asks for the version or for help.
-/

namespace TreeEdit.Command

open Text.Numeral (signed? unsigned? maxWord maxLong)

/-! ## Options -/

/-- What an option takes, and how often it may be given. -/
inductive Arity
  /-- No value, and once. -/
  | flag
  /-- No value, any number of times. -/
  | counter
  /-- A value of which a given test holds, and once. -/
  | value (accepts : String → Bool)

/-- An option of a command. -/
structure OptionSpec where
  /-- The name, without the dashes before it. -/
  name : String
  /-- The letter, if it has one. -/
  letter : Option Char
  arity : Arity

/-- Why reading ends early. -/
inductive Ending
  /-- The arguments are not those of the command. -/
  | misuse
  /-- The version is asked for. -/
  | version
  /-- Help is asked for. -/
  | help
  deriving DecidableEq, Repr

/-- What the arguments say. -/
structure Arguments where
  /-- The input, if one is given. -/
  input : Option String
  /-- The options given without value, as often as they are given. -/
  flags : List String
  /-- The options given with a value. -/
  values : List (String × String)
  deriving DecidableEq, Repr

namespace Arguments

/-- No arguments. -/
def empty : Arguments :=
  ⟨none, [], []⟩

/-- Whether an option without value is given. -/
def has (a : Arguments) (name : String) : Bool :=
  a.flags.contains name

/-- How often an option without value is given. -/
def count (a : Arguments) (name : String) : Nat :=
  a.flags.count name

/-- The value of an option. -/
def value? (a : Arguments) (name : String) : Option String :=
  (a.values.find? fun v => v.1 = name).map Prod.snd

/-! ## Reading -/

/-- Takes an input. -/
def takeInput (a : Arguments) (input : String) : Except Ending Arguments :=
  match a.input with
  | none => .ok { a with input := some input }
  | some _ => .error .misuse

/-- Takes an option without value. -/
def takeFlag (a : Arguments) (spec : OptionSpec) : Except Ending Arguments :=
  match spec.arity with
  | .flag =>
    if a.has spec.name then .error .misuse
    else .ok { a with flags := spec.name :: a.flags }
  | .counter => .ok { a with flags := spec.name :: a.flags }
  | .value _ => .error .misuse

/-- Takes an option with its value. -/
def takeValue (a : Arguments) (spec : OptionSpec) (value : String) : Except Ending Arguments :=
  match spec.arity with
  | .value accepts =>
    if (a.value? spec.name).isNone ∧ accepts value then
      .ok { a with values := (spec.name, value) :: a.values }
    else
      .error .misuse
  | _ => .error .misuse

/-- Takes letters that stand together after one dash. -/
def takeLetters (specs : List OptionSpec) (a : Arguments) : List Char → Except Ending Arguments
  | [] => .ok a
  | 'V' :: _ => .error .version
  | 'h' :: _ => .error .help
  | c :: cs =>
    match specs.find? fun s => s.letter = some c with
    | some spec => do takeLetters specs (← a.takeFlag spec) cs
    | none => .error .misuse

/-- Whether an argument can be the value of the option before it. What starts with a dash cannot,
other than the dash alone. -/
def standsAlone (arg : String) : Bool :=
  match arg.toList with
  | '-' :: _ :: _ => false
  | _ => true

/-- What an argument looks like. -/
inductive Shape
  /-- Two dashes: inputs only from here on. -/
  | separator
  /-- An option by its name, perhaps with a value. -/
  | named (name : String) (value : Option String)
  /-- Options by their letters. -/
  | lettered (letters : List Char)
  /-- An input. -/
  | input
  deriving DecidableEq, Repr

/-- The shape of an argument. -/
def shape (arg : String) : Shape :=
  match arg.toList with
  | ['-', '-'] => .separator
  | '-' :: '-' :: cs =>
    let name := String.ofList (cs.takeWhile (· ≠ '='))
    match cs.dropWhile (· ≠ '=') with
    | _ :: value => .named name (some (String.ofList value))
    | [] => .named name none
  | '-' :: c :: cs => .lettered (c :: cs)
  | _ => .input

/-- Takes an option by its name. The answer tells what remains of the arguments after it. -/
def takeNamed (specs : List OptionSpec) (a : Arguments) (name : String) (value : Option String)
    (rest : List String) : Except Ending (Arguments × Bool) :=
  match specs.find? fun s => s.name = name with
  | some spec =>
    match spec.arity, value, rest with
    | .value _, some v, _ => return (← a.takeValue spec v, false)
    | .value _, none, v :: _ =>
      if standsAlone v then return (← a.takeValue spec v, true) else throw .misuse
    | .value _, none, [] => throw .misuse
    | _, some _, _ => throw .misuse
    | _, none, _ => return (← a.takeFlag spec, false)
  | none =>
    match name, value with
    | "version", none => throw .version
    | "help", none => throw .help
    | _, _ => throw .misuse

/-- Reads arguments after those that led to `a`. -/
def readAfter (specs : List OptionSpec) (a : Arguments) : List String → Except Ending Arguments
  | [] => .ok a
  | arg :: rest =>
    match shape arg with
    | .separator => rest.foldlM takeInput a
    | .lettered letters => do readAfter specs (← a.takeLetters specs letters) rest
    | .input => do readAfter specs (← a.takeInput arg) rest
    | .named name value => do
      let (a, usesNext) ← a.takeNamed specs name value rest
      match usesNext, rest with
      | true, _ :: rest => readAfter specs a rest
      | _, rest => readAfter specs a rest

/-- Reads arguments. An input has to be among them. -/
def read (specs : List OptionSpec) (args : List String) : Except Ending Arguments := do
  let a ← readAfter specs .empty args
  if a.input.isNone then throw .misuse else return a

end Arguments

/-! ## Values of options -/

/-- Reads an option whose value is a word. The sign of a zero does not matter. -/
def wordValue? (value : String) : Option UInt32 :=
  (signed? 0 maxWord value.toList).map fun n => n.toNat.toUInt32

/-- Reads an option whose value is a size. -/
def sizeValue? (value : String) : Option Nat :=
  unsigned? maxLong value.toList

/-- The arity of an option whose value is a word. -/
def Arity.word : Arity :=
  .value fun v => (wordValue? v).isSome

/-- The arity of an option whose value is a size. -/
def Arity.size : Arity :=
  .value fun v => (sizeValue? v).isSome

/-- The arity of an option whose value is any text. -/
def Arity.text : Arity :=
  .value fun _ => true

/-- The value of an option that is a word. -/
def Arguments.word? (a : Arguments) (name : String) : Option UInt32 :=
  (a.value? name).bind wordValue?

end TreeEdit.Command
