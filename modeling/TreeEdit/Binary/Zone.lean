import TreeEdit.Binary.Word

/-!
# Zones

A program under construction has zones that grow at the end only: by words, or by bytes that are
filled up to whole words. The length of a zone is therefore always a whole number of words, which is
part of the type, and an offset handed out once keeps its meaning.

Main statements: `toList_addWords` and `toList_addPadded` say what is added to the bytes of a zone.
-/

namespace TreeEdit.Binary

/-- Bytes that make up whole words. -/
structure Zone where
  /-- The bytes written so far. -/
  bytes : Array UInt8
  /-- They end at a word boundary. -/
  aligned : bytes.toList.length % Word.size = 0

namespace Zone

/-- The zone without bytes. -/
def empty : Zone :=
  ⟨#[], rfl⟩

instance : Inhabited Zone :=
  ⟨empty⟩

/-- The bytes of a zone, in order. -/
def toList (z : Zone) : Bytes :=
  z.bytes.toList

/-- The number of bytes. -/
def length (z : Zone) : Nat :=
  z.bytes.size

/-- Whether nothing has been written. -/
def isEmpty (z : Zone) : Bool :=
  z.bytes.isEmpty

/-- The offset of what is written next, as a word. -/
def offset (z : Zone) : UInt32 :=
  z.length.toUInt32

/-! ## Writing -/

/-- Adds words at the end. -/
def addWords (z : Zone) (ws : List UInt32) : Zone where
  bytes := z.bytes ++ ws.flatMap Word.bytes
  aligned := by
    rw [Array.toList_appendList]
    exact Word.length_append_words_mod z.aligned ws

/-- Adds a word at the end. -/
def addWord (z : Zone) (w : UInt32) : Zone :=
  z.addWords [w]

/-- Adds bytes at the end and fills them up to whole words. They start at the offset the zone had
before. -/
def addPadded (z : Zone) (bs : Bytes) : Zone where
  bytes := z.bytes ++ padded bs
  aligned := by
    rw [Array.toList_appendList]
    exact length_append_padded_mod z.aligned bs

@[simp] theorem toList_addWords (z : Zone) (ws : List UInt32) :
    (z.addWords ws).toList = z.toList ++ ws.flatMap Word.bytes :=
  Array.toList_appendList

@[simp] theorem toList_addPadded (z : Zone) (bs : Bytes) :
    (z.addPadded bs).toList = z.toList ++ padded bs :=
  Array.toList_appendList

theorem length_eq (z : Zone) : z.length = z.toList.length :=
  Array.length_toList.symm

end Zone

end TreeEdit.Binary
