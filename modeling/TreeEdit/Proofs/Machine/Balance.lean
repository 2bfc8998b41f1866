import Mathlib.Algebra.Ring.Int.Defs
import TreeEdit.Proofs.Machine.Raising

/-!
# The balance of the stack

How many slots an instruction needs, and by how much it changes the depth of the stack, is a matter
of its opcode alone (`exec_weighs`). Both together are its `Weight`. Weights compose: what a second
step needs and the first one supplies is not needed in front of the two.

So the depth in front of each instruction of a run follows from the opcodes of those before it, and
a run finds the stack without a slot just where an instruction needs more slots than that
(`runAll_tallies`).
-/

namespace TreeEdit

variable {δ ν β τ α γ : Type} {H : Host δ ν β} {mem : Binary.Bytes} {traced : Bool}

/-! ## Opcodes -/

namespace Opcode

/-- By how much an instruction changes the depth of the stack. -/
def net : Opcode → Int
  | setText | setAttribute | removeAttribute | popPushNextSibling | newListener | updateListener
  | removeListener | addString => 0
  | pushFirstChild | createText | createElement => 1
  | removeSelfAndNextSiblings | replaceWith | pop | appendChild => -1

/-- The least depth at which an instruction can be executed. -/
def need : Opcode → Nat
  | createText | createElement | addString => 0
  | replaceWith | appendChild => 2
  | setText | removeSelfAndNextSiblings | setAttribute | removeAttribute | pushFirstChild
  | popPushNextSibling | pop | newListener | updateListener | removeListener => 1

end Opcode

/-- The error is not about a slot that is missing. -/
def Error.NotUnderflow (e : Error) : Prop :=
  ∀ op, e ≠ .stackUnderflow op

theorem Error.notUnderflow_overflow (limit : Nat) :
    (Error.stackOverflow limit).NotUnderflow := nofun

theorem Error.notUnderflow_host (r : HostError) : (Error.host r).NotUnderflow := nofun

theorem Error.notUnderflow_missingListener (t : String) :
    (Error.missingListener t).NotUnderflow := nofun

/-! ## Weights -/

/-- What a step is to the depth of a stack. -/
@[ext]
structure Weight where
  /-- The least depth at which the step can succeed. -/
  need : Nat
  /-- By how much the depth changes. -/
  net : Int
  deriving DecidableEq

namespace Weight

/-- The weight of a step that leaves the stack alone. -/
def none : Weight := ⟨0, 0⟩

/-- The weight of a step that looks at the slot on top. -/
def top : Weight := ⟨1, 0⟩

/-- The weight of a step that takes a slot off. -/
def pop : Weight := ⟨1, -1⟩

/-- The weight of a step that pushes a slot. -/
def push : Weight := ⟨0, 1⟩

/-- The weight of one step after another. -/
def seq (w w' : Weight) : Weight :=
  ⟨max w.need (w'.need - w.net).toNat, w.net + w'.net⟩

end Weight

/-- The weight of an instruction. -/
def Opcode.weight (op : Opcode) : Weight :=
  ⟨op.need, op.net⟩

namespace Machine

/-- As part of the instruction `op`, the step has the weight `w`: it succeeds only at a depth that
it needs, changes the depth as `w` says, and runs out of slots only at a lower depth. -/
def Weighs (op : Opcode) (w : Weight) (x : Act δ ν β τ α) : Prop :=
  ∀ m, Step.Ends x m
    (fun _ m' => w.need ≤ m.stack.depth ∧ (m'.stack.depth : Int) = m.stack.depth + w.net)
    fun e _ => ∀ op', e = .stackUnderflow op' → op' = op ∧ m.stack.depth < w.need

variable {op : Opcode} {w w' : Weight}

theorem Weighs.of_eq {x : Act δ ν β τ α} (h : Weighs op w x) (hw : w = w') : Weighs op w' x :=
  hw ▸ h

theorem Weighs.bind {x : Act δ ν β τ α} {f : α → Act δ ν β τ γ} (hx : Weighs op w x)
    (hf : ∀ a, Weighs op w' (f a)) : Weighs op (w.seq w') (x >>= f) := by
  intro m
  rw [Step.ends_bind]
  refine (hx m).mono (fun a m₁ h => ?_) fun e m₁ h op' he => ?_
  · obtain ⟨hneed, hnet⟩ := h
    refine (hf a m₁).mono (fun _ m₂ h₂ => ?_) fun e m₂ h₂ op' he => ?_
    · obtain ⟨hneed₂, hnet₂⟩ := h₂
      simp only [Weight.seq]
      omega
    · obtain ⟨hop, hlow⟩ := h₂ op' he
      refine ⟨hop, ?_⟩
      simp only [Weight.seq]
      omega
  · obtain ⟨hop, hlow⟩ := h op' he
    refine ⟨hop, ?_⟩
    simp only [Weight.seq]
    omega

/-! ### The parts of instructions -/

/-- A step that does not touch the stack, and does not find it without a slot. -/
theorem weighs_none {x : Act δ ν β τ α}
    (hx : ∀ m, Step.Ends x m (fun _ m' => m'.stack = m.stack) fun e _ => e.NotUnderflow) :
    Weighs op .none x := by
  intro m
  refine (hx m).mono (fun _ m' h => ?_) fun e _ he op' h => absurd h (he op')
  rw [h]
  exact ⟨Nat.zero_le _, (Int.add_zero _).symm⟩

theorem weighs_get : Weighs op .none (get : Act δ ν β τ _) :=
  weighs_none fun _ => rfl

theorem weighs_pure (a : α) : Weighs op .none (pure a : Act δ ν β τ α) :=
  weighs_none fun _ => rfl

theorem weighs_ofExcept {x : Except Error α} (hx : ∀ e, x = .error e → e.NotUnderflow) :
    Weighs op .none (Step.ofExcept x : Act δ ν β τ α) :=
  weighs_none fun _ => Step.ends_ofExcept.mpr ⟨fun _ _ => rfl, hx⟩

theorem weighs_store (text : String) (id : UInt32) :
    Weighs op .none (store text id : Act δ ν β τ Unit) :=
  weighs_none fun _ => rfl

theorem weighs_string (id : UInt32) : Weighs op .none (string id : Act δ ν β τ String) := by
  refine (weighs_get.bind fun m => weighs_ofExcept fun e he => ?_).of_eq rfl
  obtain rfl := StringTable.error_of_get he
  exact nofun

theorem weighs_textAt (ptr len : UInt32) :
    Weighs op .none (textAt mem ptr len : Act δ ν β τ String) := by
  refine weighs_ofExcept fun e he => ?_
  cases h : Binary.text mem ptr len with
  | ok t =>
    rw [h] at he
    cases he
  | error f =>
    rw [h] at he
    cases he
    exact nofun

theorem weighs_push (slot : Option ν) :
    Weighs op .push (onStack (Stack.push slot) : Act δ ν β τ Unit) := by
  intro m
  rw [Step.Ends]
  rcases push_cases slot m with h | ⟨limit, h⟩
  · rw [h]
    exact ⟨Nat.zero_le _, rfl⟩
  · rw [h]
    exact fun op' he => absurd he (Error.notUnderflow_overflow limit op')

theorem depth_of_pop (slot : Option ν) (rest : List (Option ν)) :
    (rest.length : Int) = ((slot :: rest).length : Int) + Weight.pop.net := by
  show (rest.length : Int) = ((rest.length + 1 : Nat) : Int) + -1
  omega

theorem weighs_pop : Weighs op .pop (onStack (Stack.pop op) : Act δ ν β τ (Option ν)) := by
  rintro ⟨s, ⟨slots, limit⟩, strings⟩
  match slots with
  | [] =>
    rintro _ ⟨⟩
    exact ⟨rfl, Nat.one_pos⟩
  | slot :: rest => exact ⟨Nat.succ_pos _, depth_of_pop slot rest⟩

theorem weighs_popNode : Weighs op .pop (onStack (Stack.popNode op) : Act δ ν β τ ν) := by
  rintro ⟨s, ⟨slots, limit⟩, strings⟩
  match slots with
  | [] =>
    rintro _ ⟨⟩
    exact ⟨rfl, Nat.one_pos⟩
  | none :: rest => exact nofun
  | some node :: rest => exact ⟨Nat.succ_pos _, depth_of_pop (some node) rest⟩

theorem weighs_topNode : Weighs op .top (onStack (Stack.topNode op) : Act δ ν β τ ν) := by
  rintro ⟨s, ⟨slots, limit⟩, strings⟩
  match slots with
  | [] =>
    rintro _ ⟨⟩
    exact ⟨rfl, Nat.one_pos⟩
  | none :: rest => exact nofun
  | some node :: rest => exact ⟨Nat.succ_pos _, (Int.add_zero _).symm⟩

/-- The steps of a scene do not know the stack. -/
theorem weighs_onScene {x : Scene.Act δ ν β τ α} (hx : Step.Raises Error.NotUnderflow x) :
    Weighs op .none (onScene x) :=
  weighs_none fun m => ends_onScene.mpr ((hx m.toScene).mono (fun _ _ _ => rfl) fun _ _ he => he)

theorem weighs_call {k : Reply} (c : HostCall ν β k) :
    Weighs op .none (call H c : Act δ ν β τ _) :=
  weighs_onScene (Scene.call_raises Error.notUnderflow_host c)

theorem weighs_follow (node : ν) (property : Option Property) :
    Weighs op .none (follow H node property : Act δ ν β τ Unit) := by
  cases property with
  | none => exact weighs_pure ()
  | some property => exact weighs_call _

theorem weighs_removeFrom (steps : Nat) (node : ν) :
    Weighs op .none (removeFrom H steps node : Act δ ν β τ Unit) := by
  induction steps generalizing node with
  | zero => exact weighs_pure ()
  | succ steps ih =>
    have hnext (next : Option ν) :
        Weighs op .none (next.elim (pure ()) (removeFrom H steps) : Act δ ν β τ Unit) := by
      cases next with
      | none => exact weighs_pure ()
      | some sibling => exact ih sibling
    rw [removeFrom_succ]
    exact (weighs_get.bind fun _ => (weighs_call _).bind fun _ => hnext _).of_eq rfl

/-- An instruction has the weight that its opcode says. -/
theorem exec_weighs (mem : Binary.Bytes) (i : Instr) :
    Weighs i.opcode i.opcode.weight (exec H mem i : Act δ ν β τ Unit) := by
  -- the parts compose to some weight, which comes down to that of the opcode
  cases i with
  | setText ptr len =>
    exact ((weighs_textAt _ _).bind fun _ => weighs_topNode.bind fun _ => weighs_call _).of_eq rfl
  | removeSelfAndNextSiblings =>
    exact (weighs_popNode.bind fun _ => weighs_get.bind fun _ => weighs_removeFrom _ _).of_eq rfl
  | replaceWith =>
    exact (weighs_popNode.bind fun _ => weighs_popNode.bind fun _ => (weighs_call _).bind fun _ =>
      weighs_push _).of_eq rfl
  | setAttribute name value =>
    exact (weighs_topNode.bind fun _ => (weighs_string _).bind fun _ => (weighs_string _).bind
      fun _ => (weighs_call _).bind fun _ => weighs_follow _ _).of_eq rfl
  | removeAttribute name =>
    exact (weighs_topNode.bind fun _ => (weighs_string _).bind fun _ => (weighs_call _).bind
      fun _ => weighs_follow _ _).of_eq rfl
  | pushFirstChild =>
    exact (weighs_topNode.bind fun _ => weighs_get.bind fun _ => weighs_push _).of_eq rfl
  | popPushNextSibling =>
    exact (weighs_popNode.bind fun _ => weighs_get.bind fun _ => weighs_push _).of_eq rfl
  | pop => exact (weighs_pop.bind fun _ => weighs_pure ()).of_eq rfl
  | appendChild =>
    exact (weighs_popNode.bind fun _ => weighs_topNode.bind fun _ => weighs_call _).of_eq rfl
  | createText ptr len =>
    exact ((weighs_textAt _ _).bind fun _ => (weighs_call _).bind fun _ => weighs_push _).of_eq rfl
  | createElement tag =>
    exact ((weighs_string _).bind fun _ => (weighs_call _).bind fun _ => weighs_push _).of_eq rfl
  | newListener event a b =>
    exact (weighs_topNode.bind fun _ => (weighs_string _).bind fun _ =>
      weighs_onScene (Scene.attach_raises Error.notUnderflow_host _ _ _)).of_eq rfl
  | updateListener event a b =>
    exact (weighs_topNode.bind fun _ => weighs_get.bind fun _ => (weighs_string _).bind fun _ =>
      weighs_onScene (Scene.update_raises Error.notUnderflow_missingListener _ _ _)).of_eq rfl
  | removeListener event =>
    exact (weighs_topNode.bind fun _ => (weighs_string _).bind fun _ =>
      weighs_onScene (Scene.detach_raises Error.notUnderflow_host
        Error.notUnderflow_missingListener _ _)).of_eq rfl
  | addString ptr len id =>
    exact ((weighs_textAt _ _).bind fun text => weighs_store text id).of_eq rfl

variable {m m' : Machine δ ν β τ} {i : Instr}

/-- An instruction that needs more slots than there are fails. -/
theorem exists_error_of_low (H : Host δ ν β) (mem : Binary.Bytes)
    (h : m.stack.depth < i.opcode.need) : ∃ e m', exec H mem i m = .error e m' := by
  have hends := exec_weighs (H := H) mem i m
  cases hx : exec H mem i m with
  | error e m' => exact ⟨e, m', rfl⟩
  | ok _ m' =>
    rw [Step.Ends, hx] at hends
    exact absurd h (Nat.not_lt.mpr hends.1)

/-- Only an instruction that needs more slots than there are runs out of them. -/
theorem low_of_underflow (h : exec H mem i m = .error (.stackUnderflow op) m') :
    op = i.opcode ∧ m.stack.depth < i.opcode.need :=
  (Step.ends_iff.mp (exec_weighs mem i m)).2 _ m' h op rfl

/-! ## Runs -/

/-- By how much the executed instructions change the depth in all. -/
def netOf (l : List (Machine δ ν β τ × Instr)) : Int :=
  (l.map fun execution => execution.2.opcode.net).sum

/-- In front of each instruction the stack has the depth that those before it make of `depth`. -/
def Balanced : Int → List (Machine δ ν β τ × Instr) → Prop
  | _, [] => True
  | depth, (m, i) :: l => m.stack.depth = depth ∧ Balanced (depth + i.opcode.net) l

/-- The list ends with an instruction that found the stack without a slot, as `op`. -/
def FallsShort (H : Host δ ν β) (mem : Binary.Bytes) (op : Opcode)
    (l : List (Machine δ ν β τ × Instr)) : Prop :=
  ∃ before m i m', l = before ++ [(m, i)] ∧ exec H mem i m = .error (.stackUnderflow op) m'

/-- The instructions `l` account for the depth that a step leaves, and for a slot that it does not
find. -/
structure Tallies (H : Host δ ν β) (mem : Binary.Bytes) (x : Act δ ν β τ α) (m : Machine δ ν β τ)
    (l : List (Machine δ ν β τ × Instr)) : Prop where
  balanced : Balanced m.stack.depth l
  ends : Step.Ends x m (fun _ m' => (m'.stack.depth : Int) = m.stack.depth + netOf l)
    fun e _ => ∀ op, e = .stackUnderflow op → FallsShort H mem op l

section Lists

variable {l l' before after : List (Machine δ ν β τ × Instr)} {depth : Int}

@[simp] theorem netOf_nil : netOf ([] : List (Machine δ ν β τ × Instr)) = 0 := rfl

@[simp] theorem netOf_cons : netOf ((m, i) :: l) = i.opcode.net + netOf l := rfl

@[simp] theorem netOf_append : netOf (l ++ l') = netOf l + netOf l' := by
  simp [netOf]

theorem Balanced.append (h : Balanced depth l) (h' : Balanced (depth + netOf l) l') :
    Balanced depth (l ++ l') := by
  induction l generalizing depth with
  | nil => simpa using h'
  | cons execution l ih =>
    obtain ⟨m, i⟩ := execution
    refine ⟨h.1, ih h.2 ?_⟩
    rwa [netOf_cons, ← Int.add_assoc] at h'

theorem Balanced.depth_eq (h : Balanced depth (before ++ (m, i) :: after)) :
    m.stack.depth = depth + netOf before := by
  induction before generalizing depth with
  | nil => simpa using h.1
  | cons execution before ih =>
    rw [netOf_cons, ← Int.add_assoc]
    exact ih h.2

theorem FallsShort.append (h : FallsShort H mem op l)
    (prior : List (Machine δ ν β τ × Instr)) : FallsShort H mem op (prior ++ l) := by
  obtain ⟨before, m, i, m', rfl, hexec⟩ := h
  exact ⟨prior ++ before, m, i, m', (List.append_assoc _ _ _).symm, hexec⟩

end Lists

/-- By induction on what is left to read. -/
theorem runFrom_tallies (mem : Binary.Bytes) (traced : Bool) (c : Binary.Cursor) (executed : Nat)
    (m : Machine δ ν β τ) :
    Tallies H mem (runFrom H mem traced c executed) m (executionsFrom H mem traced c m) := by
  induction c using cursor_induction generalizing executed m with
  | ended c hend =>
    rw [runFrom_of_end hend, executionsFrom_of_end hend]
    exact ⟨trivial, (Int.add_zero _).symm⟩
  | fault c f c' hend hr =>
    rw [runFrom_of_fault hend hr, executionsFrom_of_fault hr]
    exact ⟨trivial, nofun⟩
  | past c i c' hr ih =>
    have hweighs := exec_weighs (H := H) mem i (m.noted traced c.offset i)
    have hdepth : ((m.noted traced c.offset i).stack.depth : Int) = m.stack.depth := by simp
    rw [Step.Ends] at hweighs
    rw [executionsFrom_of_read hr]
    cases hx : exec H mem i (m.noted traced c.offset i) with
    | error e m' =>
      -- the failed instruction is the last one executed, so it is the one that falls short
      have hrun : runFrom H mem traced c executed m = .error e m' := by
        rw [runFrom_of_read hr, Step.bind_error ((attempt_eq m c.offset).trans hx)]
      refine ⟨⟨hdepth, trivial⟩, ?_⟩
      rw [Step.Ends, hrun]
      rintro op rfl
      exact ⟨[], _, i, m', rfl, hx⟩
    | ok _ m' =>
      have hrun : runFrom H mem traced c executed m
          = runFrom H mem traced c' (executed + 1) m' := by
        rw [runFrom_of_read hr, Step.bind_ok ((attempt_eq m c.offset).trans hx)]
      rw [hx] at hweighs
      have hnet : (m'.stack.depth : Int) = m.stack.depth + i.opcode.net := by
        rw [hweighs.2, hdepth]
        rfl
      obtain ⟨hbalanced, hends⟩ := ih (executed + 1) m'
      refine ⟨⟨hdepth, hnet ▸ hbalanced⟩, ?_⟩
      rw [Step.Ends, hrun]
      refine hends.mono (fun _ m₂ h => ?_) fun e _ h op he => (h op he).append [_]
      rw [h, hnet, netOf_cons, Int.add_assoc]

theorem runRange_tallies (mem : Binary.Bytes) (traced : Bool) (span : Span)
    (m : Machine δ ν β τ) :
    Tallies H mem (runRange H mem traced span) m (executionsRange H mem traced span m) := by
  unfold runRange executionsRange
  cases Binary.Cursor.ofRange mem span.start span.len with
  | ok c => exact runFrom_tallies mem traced c 0 m
  | error f => exact ⟨trivial, nofun⟩

/-- By induction on the ranges. -/
theorem runAll_tallies (mem : Binary.Bytes) (traced : Bool) (spans : List Span)
    (m : Machine δ ν β τ) :
    Tallies H mem (runAll H mem traced spans) m (executionsAll H mem traced spans m) := by
  induction spans generalizing m with
  | nil => exact ⟨trivial, (Int.add_zero _).symm⟩
  | cons span spans ih =>
    obtain ⟨hbalanced, hends⟩ := runRange_tallies (H := H) mem traced span m
    rw [runAll, executionsAll]
    rw [Step.Ends] at hends
    cases hx : runRange H mem traced span m with
    | error e m' =>
      rw [hx] at hends
      rw [List.append_nil]
      refine ⟨hbalanced, ?_⟩
      rw [Step.Ends, Step.bind_error hx]
      exact hends
    | ok n m' =>
      rw [hx] at hends
      obtain ⟨hbalanced', hends'⟩ := ih m'
      refine ⟨hbalanced.append (hends ▸ hbalanced'), ?_⟩
      rw [Step.Ends, Step.bind_ok hx]
      refine Step.ends_bind.mpr (hends'.mono (fun k m₂ h => ?_) fun e _ h op he =>
        (h op he).append _)
      show (m₂.stack.depth : Int) = _
      rw [h, hends, netOf_append, Int.add_assoc]

end Machine

end TreeEdit
