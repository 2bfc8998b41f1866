import TreeEdit.Error
import TreeEdit.OrderedMap

/-!
# The string table of a session

The table holds the texts that instructions name by their string ids. A text that is stored under an
id in use takes the place of the one before it. Nothing is taken out until the session is over.
-/

namespace TreeEdit

/-- Texts by string id. -/
structure StringTable where
  /-- The texts that are stored, by id. -/
  texts : OrderedMap UInt32 String

namespace StringTable

/-- The table without texts. -/
def empty : StringTable :=
  ⟨.empty⟩

/-- The number of ids in use. -/
def size (t : StringTable) : Nat :=
  t.texts.size

/-- Whether no id is in use. -/
def isEmpty (t : StringTable) : Bool :=
  t.texts.isEmpty

/-- Stores `text` under `id`. -/
def add (t : StringTable) (text : String) (id : UInt32) : StringTable :=
  ⟨t.texts.put id text⟩

/-- The text under `id`. -/
def get (t : StringTable) (id : UInt32) : Except Error String :=
  match t.texts.get? id with
  | some text => .ok text
  | none => .error (.missingString id)

/-- The last text stored under an id is the one that is found. -/
theorem get_add (t : StringTable) (text : String) (id id' : UInt32) :
    (t.add text id).get id' = if id = id' then .ok text else t.get id' := by
  simp only [get, add, OrderedMap.get?_put]
  by_cases h : id = id'
  · simp only [if_pos h]
  · simp only [if_neg h]

end StringTable

end TreeEdit
