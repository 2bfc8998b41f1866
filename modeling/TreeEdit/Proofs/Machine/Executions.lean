import TreeEdit.Proofs.Machine.Encoding
import TreeEdit.Proofs.Steps

/-!
# What a run executes

A run executes one instruction after another, each on the machine that those before it have left.
`executionsFrom`, `executionsRange` and `executionsAll` list them, up to the first that fails. They
follow the run and decide nothing of their own: an instruction is listed with the machine that it
was in fact executed on, whether it succeeds or not.
-/

namespace TreeEdit.Machine

open Binary

variable {δ ν β τ : Type} {H : Host δ ν β} {mem : Bytes} {traced : Bool} {c c' : Cursor} {i : Instr}

/-! ## One instruction at a time -/

/-- The machine that an instruction is executed on: if the run is `traced`, the attempt at it has
been noted. -/
def noted (m : Machine δ ν β τ) (traced : Bool) (offset : Nat) (i : Instr) : Machine δ ν β τ :=
  if traced then { m with journal := m.journal.push (.attempted offset i m.stack.depth) } else m

@[simp] theorem doc_noted (m : Machine δ ν β τ) (offset : Nat) :
    (m.noted traced offset i).doc = m.doc := by
  cases traced <;> rfl

@[simp] theorem listeners_noted (m : Machine δ ν β τ) (offset : Nat) :
    (m.noted traced offset i).listeners = m.listeners := by
  cases traced <;> rfl

@[simp] theorem stack_noted (m : Machine δ ν β τ) (offset : Nat) :
    (m.noted traced offset i).stack = m.stack := by
  cases traced <;> rfl

theorem attempt_eq (m : Machine δ ν β τ) (offset : Nat) :
    attempt H mem traced offset i m = exec H mem i (m.noted traced offset i) := by
  cases traced <;> rfl

theorem runFrom_of_end (h : c.atEnd = true) (executed : Nat) :
    (runFrom H mem traced c executed : Act δ ν β τ Nat) = return executed := by
  rw [runFrom, h]
  rfl

theorem runFrom_of_fault (h : c.atEnd = false) {f : Fault} (hr : Instr.read c = .error f c')
    (executed : Nat) :
    (runFrom H mem traced c executed : Act δ ν β τ Nat) = throw (.fault f) := by
  rw [runFrom, h]
  split
  · rename_i h
    cases h
  · split
    · rename_i f' c₁ h₁
      cases hr.symm.trans h₁
      rfl
    · rename_i i c₁ h₁
      cases hr.symm.trans h₁

theorem atEnd_of_read (hr : Instr.read c = .ok i c') : c.atEnd = false := by
  have hrem := Instr.remaining_of_read hr
  have hpos := i.encodedLength_pos
  rw [Cursor.atEnd, List.isEmpty_eq_false_iff]
  intro hnil
  rw [Cursor.remaining, Cursor.remaining, hnil, List.length_nil] at hrem
  omega

theorem runFrom_of_read (hr : Instr.read c = .ok i c') (executed : Nat) :
    (runFrom H mem traced c executed : Act δ ν β τ Nat) =
      attempt H mem traced c.offset i >>= fun _ => runFrom H mem traced c' (executed + 1) := by
  rw [runFrom, atEnd_of_read hr]
  split
  · rename_i h
    cases h
  · split
    · rename_i f c₁ h₁
      cases hr.symm.trans h₁
    · rename_i i' c₁ h₁
      cases hr.symm.trans h₁
      cases traced <;> rfl

/-- Induction along what is left to read: to the end, to a fault, or past an instruction. -/
theorem cursor_induction {P : Cursor → Prop} (c : Cursor) (ended : ∀ c, c.atEnd = true → P c)
    (fault : ∀ c f c', c.atEnd = false → Instr.read c = .error f c' → P c)
    (past : ∀ c i c', Instr.read c = .ok i c' → P c' → P c) : P c := by
  induction hn : c.remaining using Nat.strongRecOn generalizing c with
  | ind n ih =>
    subst hn
    cases hend : c.atEnd with
    | true => exact ended c hend
    | false =>
      cases hr : Instr.read c with
      | error f c' => exact fault c f c' hend hr
      | ok i c' =>
        have hrem := Instr.remaining_of_read hr
        have hpos := i.encodedLength_pos
        exact past c i c' hr (ih c'.remaining (by omega) c' rfl)

/-! ## The list of them -/

/-- What a run executes from a cursor on, each instruction with the machine that it is executed
on. -/
def executionsFrom (H : Host δ ν β) (mem : Bytes) (traced : Bool) (c : Cursor)
    (m : Machine δ ν β τ) : List (Machine δ ν β τ × Instr) :=
  match _h : Instr.read c with
  | .error _ _ => []
  | .ok i c' =>
    (m.noted traced c.offset i, i) ::
      match exec H mem i (m.noted traced c.offset i) with
      | .ok _ m' => executionsFrom H mem traced c' m'
      | .error _ _ => []
termination_by c.remaining
decreasing_by
  have := Instr.remaining_of_read _h
  have := Instr.encodedLength_pos i
  omega

/-- What a run of a range executes. -/
def executionsRange (H : Host δ ν β) (mem : Bytes) (traced : Bool) (span : Span)
    (m : Machine δ ν β τ) : List (Machine δ ν β τ × Instr) :=
  match Cursor.ofRange mem span.start span.len with
  | .ok c => executionsFrom H mem traced c m
  | .error _ => []

/-- What a run of ranges one after another executes. -/
def executionsAll (H : Host δ ν β) (mem : Bytes) (traced : Bool) :
    List Span → Machine δ ν β τ → List (Machine δ ν β τ × Instr)
  | [], _ => []
  | span :: spans, m =>
    executionsRange H mem traced span m ++
      match runRange H mem traced span m with
      | .ok _ m' => executionsAll H mem traced spans m'
      | .error _ _ => []

theorem executionsFrom_of_fault {f : Fault} (hr : Instr.read c = .error f c')
    (m : Machine δ ν β τ) : executionsFrom H mem traced c m = [] := by
  rw [executionsFrom]
  split
  · rfl
  · rename_i i c₁ h₁
    cases hr.symm.trans h₁

theorem executionsFrom_of_end (h : c.atEnd = true) (m : Machine δ ν β τ) :
    executionsFrom H mem traced c m = [] := by
  cases hr : Instr.read c with
  | error f c' => exact executionsFrom_of_fault hr m
  | ok i c' => cases h.symm.trans (atEnd_of_read hr)

theorem executionsFrom_of_read (hr : Instr.read c = .ok i c') (m : Machine δ ν β τ) :
    executionsFrom H mem traced c m = (m.noted traced c.offset i, i) ::
      match exec H mem i (m.noted traced c.offset i) with
      | .ok _ m' => executionsFrom H mem traced c' m'
      | .error _ _ => [] := by
  rw [executionsFrom]
  split
  · rename_i f c₁ h₁
    cases hr.symm.trans h₁
  · rename_i i' c₁ h₁
    cases hr.symm.trans h₁
    rfl

/-- The last instruction is executed whether it succeeds or not. -/
theorem executionsFrom_of_last (hr : Instr.read c = .ok i c') (hend : c'.atEnd = true)
    (m : Machine δ ν β τ) :
    executionsFrom H mem traced c m = [(m.noted traced c.offset i, i)] := by
  rw [executionsFrom_of_read hr]
  cases exec H mem i (m.noted traced c.offset i) with
  | error e m' => rfl
  | ok _ m' =>
    dsimp only
    rw [executionsFrom_of_end hend]

theorem executionsAll_singleton (span : Span) (m : Machine δ ν β τ) :
    executionsAll H mem traced [span] m = executionsRange H mem traced span m := by
  rw [executionsAll]
  cases runRange H mem traced span m <;> exact List.append_nil _

end TreeEdit.Machine
