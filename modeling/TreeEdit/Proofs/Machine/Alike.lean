import TreeEdit.Machine.Exec
import TreeEdit.Proofs.Agreement
import TreeEdit.Proofs.Machine.Steps

/-!
# Machines that cannot be told apart from outside

Two machines are alike if they show the same document and the same listeners and have the same slots
on their stacks. Their journals may differ, and so may their string tables; of the one on the left
the table is known. The steps that instructions are made of read neither, so that they agree on
machines that are alike.
-/

namespace TreeEdit

open Step (Agree)

variable {δ ν β τ α : Type} {H : Host δ ν β} {k : Reply}

/-! ## Scenes -/

namespace Scene

/-- The scenes differ in their journals at most. -/
structure Alike (c c' : Scene δ ν β τ) : Prop where
  doc : c.doc = c'.doc
  listeners : c.listeners = c'.listeners

variable {c c' : Scene δ ν β τ}

theorem note_agree (h : c.Alike c') (notice : Notice) :
    Agree Alike (note notice) (note notice) c c' :=
  Step.agree_modify ⟨h.doc, h.listeners⟩

theorem modifyListeners_agree (h : c.Alike c') (f : Registry ν β τ → Registry ν β τ) :
    Agree Alike (modifyListeners f) (modifyListeners f) c c' :=
  Step.agree_modify ⟨h.doc, congrArg f h.listeners⟩

theorem call_agree (h : c.Alike c') (cl : HostCall ν β k) :
    Agree Alike (call H cl) (call H cl) c c' := by
  unfold Agree call
  rw [← h.doc]
  cases H.perform cl c.doc with
  | ok a d => exact ⟨rfl, rfl, h.listeners⟩
  | error e d => exact ⟨rfl, rfl, h.listeners⟩

theorem release_agree (h : c.Alike c') (node : NodeKey) (eventType : String)
    (entry : Registry.Entry ν β) :
    Agree Alike (release H node eventType entry) (release H node eventType entry) c c' :=
  Step.agree_bind (modifyListeners_agree h _) fun _ _ _ h => call_agree h _

theorem attach_agree (h : c.Alike c') (node : ν) (eventType : String)
    (handles : UInt32 × UInt32) :
    Agree Alike (attach H node eventType handles) (attach H node eventType handles) c c' := by
  -- what is made and bound once the entry in the way, if any, is gone
  have hbinds {c c' : Scene δ ν β τ} (h : c.Alike c') (key : NodeKey) :
      Agree Alike (get >>= fun s => enlist H key node eventType handles s.listeners)
        (get >>= fun s => enlist H key node eventType handles s.listeners) c c' := by
    refine Step.agree_get ?_
    rw [← h.listeners]
    exact Step.agree_bind (modifyListeners_agree h _) fun _ _ _ h =>
      Step.agree_bind (call_agree h _) fun _ _ _ h => modifyListeners_agree h _
  refine Step.agree_get (Step.agree_get ?_)
  rw [← h.doc, ← h.listeners]
  cases c.listeners.entries.get? (H.key c.doc node, eventType) with
  | none => exact hbinds h _
  | some entry =>
    exact Step.agree_bind (note_agree h _) fun _ _ _ h =>
      Step.agree_bind (release_agree h _ _ _) fun _ _ _ h => hbinds h _

theorem update_agree (h : c.Alike c') (node : NodeKey) (eventType : String)
    (handles : UInt32 × UInt32) :
    Agree Alike (update node eventType handles) (update node eventType handles) c c' := by
  refine Step.agree_get ?_
  rw [← h.listeners]
  refine Step.agree_bind (Step.agree_ofExcept _ h) fun _ _ _ h => ?_
  exact modifyListeners_agree h _

theorem detach_agree (h : c.Alike c') (node : ν) (eventType : String) :
    Agree Alike (detach H node eventType) (detach H node eventType) c c' := by
  refine Step.agree_get (Step.agree_get ?_)
  rw [← h.doc, ← h.listeners]
  cases c.listeners.entries.get? (H.key c.doc node, eventType) with
  | none => exact Step.agree_throw _ h
  | some entry => exact release_agree h _ _ _

end Scene

/-! ## Machines -/

namespace Machine

/-- The machines differ in their journals and string tables at most, and the table of the one on
the left is `t`. -/
structure Alike (t : StringTable) (m m' : Machine δ ν β τ) : Prop where
  scene : m.toScene.Alike m'.toScene
  stack : m.stack = m'.stack
  strings : m.strings = t

variable {t : StringTable} {m m' : Machine δ ν β τ}

theorem Alike.refl (m : Machine δ ν β τ) : Alike m.strings m m :=
  ⟨⟨rfl, rfl⟩, rfl, rfl⟩

/-- The machines differ in their journals and string tables at most. -/
abbrev Same (m m' : Machine δ ν β τ) : Prop :=
  ∃ t, Alike t m m'

theorem Same.refl (m : Machine δ ν β τ) : Same m m :=
  ⟨m.strings, .refl m⟩

theorem onScene_agree (h : Alike t m m') {x y : Scene.Act δ ν β τ α}
    (hx : Agree Scene.Alike x y m.toScene m'.toScene) :
    Agree (Alike t) (onScene x) (onScene y) m m' :=
  Step.agree_onPart hx fun _ _ hc => ⟨hc, h.stack, h.strings⟩

theorem onStack_agree (h : Alike t m m') (x : EStateM Error (Stack ν) α) :
    Agree (Alike t) (onStack x) (onStack x) m m' := by
  refine Step.agree_onPart (Step.agree_refl x h.stack) fun st st' hst => ?_
  exact ⟨h.scene, hst, h.strings⟩

theorem call_agree (h : Alike t m m') (c : HostCall ν β k) :
    Agree (Alike t) (call H c) (call H c) m m' :=
  onScene_agree h (Scene.call_agree h.scene c)

theorem follow_agree (h : Alike t m m') (node : ν) (property : Option Property) :
    Agree (Alike t) (follow H node property) (follow H node property) m m' := by
  cases property with
  | none => exact Step.agree_pure _ h
  | some property => exact call_agree h _

theorem removeFrom_agree (h : Alike t m m') (steps : Nat) (node : ν) :
    Agree (Alike t) (removeFrom H steps node) (removeFrom H steps node) m m' := by
  induction steps generalizing m m' node with
  | zero => exact Step.agree_pure _ h
  | succ steps ih =>
    rw [removeFrom]
    refine Step.agree_get ?_
    rw [← h.scene.doc]
    refine Step.agree_bind (call_agree h _) fun _ _ _ h => ?_
    split
    · exact ih h _
    · exact Step.agree_pure _ h

end Machine

end TreeEdit
