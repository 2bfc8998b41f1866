import TreeEdit.Text.Numeral

/-!
# The configuration of a session

A session can be told to accept programs that leave slots on the stack, to note every instruction,
and to bound the depth of its stack. The configuration can be read from the settings of the
environment, where a setting that is absent or malformed counts as not made.
-/

namespace TreeEdit

open Text.Numeral (unsigned? maxByte maxLong)

/-- What a session can be told. -/
structure Config where
  /-- Whether a program that leaves more than its first slot on the stack is in error. -/
  strictStack : Bool
  /-- Whether every instruction is noted before it is executed. -/
  traced : Bool
  /-- The greatest depth of the stack, if there is one. -/
  maxStackDepth : Option Nat
  deriving DecidableEq, Repr

namespace Config

/-- The configuration that holds unless something else is said. -/
def standard : Config :=
  ⟨true, false, none⟩

/-! ## Settings -/

/-- The name of the setting for `strictStack`. -/
def strictStackSetting : String := "CHANGELIST_STRICT_STACK"

/-- The name of the setting for `traced`. -/
def tracedSetting : String := "CHANGELIST_TRACE_OPS"

/-- The name of the setting for `maxStackDepth`. -/
def maxStackDepthSetting : String := "CHANGELIST_MAX_STACK_DEPTH"

/-- Reads a setting that is on or off: a small number, where 0 is off. -/
def readSwitch (setting : Option String) (otherwise : Bool) : Bool :=
  match setting.bind fun s => unsigned? maxByte s.toList with
  | some n => n ≠ 0
  | none => otherwise

/-- Reads a setting that is a bound, where 0 is no bound. -/
def readBound (setting : Option String) : Option Nat :=
  (setting.bind fun s => unsigned? maxLong s.toList).filter (· ≠ 0)

/-- The configuration that an environment asks for. -/
def ofEnvironment (setting : String → Option String) : Config where
  strictStack := readSwitch (setting strictStackSetting) standard.strictStack
  traced := readSwitch (setting tracedSetting) standard.traced
  maxStackDepth := readBound (setting maxStackDepthSetting)

end Config

end TreeEdit
