import TreeEdit.Machine.Run

/-!
# Running encoded instructions

A run reads an instruction only when it comes to it. Where the encoding of an instruction stands,
the run executes that instruction and goes on behind it.
-/

namespace TreeEdit.Machine

open Binary

variable {δ ν β τ : Type} {H : Host δ ν β} {mem : Bytes} {traced : Bool}

/-- What a run does about one instruction. -/
def attempt (H : Host δ ν β) (mem : Bytes) (traced : Bool) (offset : Nat) (i : Instr) :
    Act δ ν β τ Unit := do
  if traced then
    let depth := (← get).stack.depth
    onScene (Scene.note (.attempted offset i depth))
  exec H mem i

theorem runFrom_nil (offset executed : Nat) :
    (runFrom H mem traced ⟨offset, []⟩ executed : Act δ ν β τ Nat) = return executed := by
  rw [runFrom]
  rfl

theorem runFrom_encode (i : Instr) (offset executed : Nat) (rest : Bytes) :
    (runFrom H mem traced ⟨offset, i.encode ++ rest⟩ executed : Act δ ν β τ Nat) =
      attempt H mem traced offset i >>= fun _ =>
        runFrom H mem traced ⟨offset + i.encodedLength, rest⟩ (executed + 1) := by
  have hend : (⟨offset, i.encode ++ rest⟩ : Cursor).atEnd = false := by
    have hpos := i.encodedLength_pos
    rw [← i.length_encode] at hpos
    rw [Cursor.atEnd, List.isEmpty_eq_false_iff]
    intro h
    rw [(List.append_eq_nil_iff.mp h).1] at hpos
    exact Nat.lt_irrefl 0 hpos
  rw [runFrom, hend]
  split
  · rename_i h
    cases h
  · split
    · rename_i e c h
      rw [Instr.read_encode] at h
      cases h
    · rename_i i' c h
      rw [Instr.read_encode] at h
      cases h
      cases traced
      · rfl
      · rfl

end TreeEdit.Machine
