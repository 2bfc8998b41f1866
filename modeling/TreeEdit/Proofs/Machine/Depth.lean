import TreeEdit.Proofs.Following
import TreeEdit.Proofs.Listener.Leading
import TreeEdit.Proofs.Machine.Alike
import TreeEdit.Proofs.Machine.Leading

/-!
# The depth of the stack

A stack looks at its limit in one place, when a slot is pushed. So it never holds more slots than it
may (`Stack.Basic.staysWithin`), and two machines that differ in their limits run a program alike,
until the one with the lower limit has no room for a slot (`runAll_outlasts`). Whether instructions
are noted makes no difference to that.
-/

namespace TreeEdit

open Step (Agree Chains Leads Lasting)

variable {δ ν β τ α : Type} {H : Host δ ν β}

/-! ## Stacks -/

namespace Stack

/-- The stack holds no more slots than it may. -/
def Fits (s : Stack ν) : Prop :=
  ∀ limit, s.limit = some limit → s.depth ≤ limit

/-- The limit stays the same, and is kept to. -/
structure StaysWithin (s s' : Stack ν) : Prop where
  limit : s'.limit = s.limit
  fits : s.Fits → s'.Fits

theorem chains_staysWithin : Chains (StaysWithin (ν := ν)) where
  refl _ := ⟨rfl, id⟩
  trans h h' := ⟨h'.limit.trans h.limit, h'.fits ∘ h.fits⟩

/-- A depth within the limit stays within it. -/
theorem StaysWithin.depth_le {s s' : Stack ν} (h : s.StaysWithin s') {limit : Nat}
    (hlimit : s.limit = some limit) (hdepth : s.depth ≤ limit) : s'.depth ≤ limit := by
  refine h.fits (fun l hl => ?_) limit (h.limit.trans hlimit)
  cases hlimit.symm.trans hl
  exact hdepth

/-- Slots may go. -/
theorem staysWithin_of_le {s s' : Stack ν} (hlimit : s'.limit = s.limit)
    (hdepth : s'.depth ≤ s.depth) : s.StaysWithin s' :=
  ⟨hlimit, fun h limit hl => hdepth.trans (h limit (hlimit ▸ hl))⟩

theorem push_staysWithin (slot : Option ν) : Leads StaysWithin (push slot) := by
  intro s
  by_cases hroom : ∀ limit, s.limit = some limit → s.depth < limit
  · rw [Step.Ends, push_of_room hroom]
    exact ⟨rfl, fun _ => hroom⟩
  · simp only [Classical.not_forall, Nat.not_lt] at hroom
    obtain ⟨limit, hl, hd⟩ := hroom
    rw [Step.Ends, push_of_full hl hd]
    exact chains_staysWithin.refl s

/-- Every step that an instruction takes on the stack keeps to the limit. -/
theorem Basic.staysWithin {x : EStateM Error (Stack ν) α} (h : Basic x) :
    Leads StaysWithin x := by
  cases h with
  | push slot => exact push_staysWithin slot
  | pop op =>
    rintro ⟨slots, limit⟩
    match slots with
    | [] => exact chains_staysWithin.refl _
    | _ :: rest => exact staysWithin_of_le rfl (Nat.le_succ _)
  | popNode op =>
    rintro ⟨slots, limit⟩
    match slots with
    | [] => exact chains_staysWithin.refl _
    | none :: rest => exact staysWithin_of_le rfl (Nat.le_succ _)
    | some _ :: rest => exact staysWithin_of_le rfl (Nat.le_succ _)
  | topNode op =>
    rintro ⟨slots, limit⟩
    match slots with
    | [] => exact chains_staysWithin.refl _
    | none :: rest => exact chains_staysWithin.refl _
    | some _ :: rest => exact chains_staysWithin.refl _

/-! ### Two limits -/

/-- The limit `lower` allows no greater depth than `upper`. -/
def AtMost (lower upper : Option Nat) : Prop :=
  ∀ u, upper = some u → ∃ l, lower = some l ∧ l ≤ u

/-- The stacks hold the same slots. The limit of the first is `upper`, that of the second `lower`. -/
structure Roomier (upper lower : Option Nat) (s s' : Stack ν) : Prop where
  slots : s.slots = s'.slots
  upper : s.limit = upper
  lower : s'.limit = lower

/-- The second stack has had no room for a slot, because its limit is the lower one. -/
def Overflown (upper lower : Option Nat) (_ : Stack ν) (e : Error) (_ : Stack ν) : Prop :=
  ∃ limit, lower = some limit ∧ upper ≠ lower ∧ e = .stackOverflow limit

variable {upper lower : Option Nat} {s s' : Stack ν}

/-- A slot that finds room under the lower limit finds room under the upper one. -/
theorem push_outlasts (hle : AtMost lower upper) (h : s.Roomier upper lower s')
    (slot : Option ν) : Agree (Roomier upper lower) (push slot) (push slot) s s' ∨
      ∃ e t', push slot s' = .error e t' ∧
        Overflown upper lower (Step.after (push slot) s) e t' := by
  obtain ⟨slots, upper⟩ := s
  obtain ⟨_, lower⟩ := s'
  obtain ⟨rfl, rfl, rfl⟩ := h
  by_cases hroom : ∀ l, lower = some l → slots.length < l
  · have hroom' : ∀ u, upper = some u → slots.length < u := fun u hu =>
      have ⟨l, hl, hlu⟩ := hle u hu
      (hroom l hl).trans_le hlu
    exact .inl (Step.agree_of_ok (push_of_room hroom' slot) (push_of_room hroom slot)
      ⟨rfl, rfl, rfl⟩)
  · simp only [Classical.not_forall, Nat.not_lt] at hroom
    obtain ⟨l, hl, hd⟩ := hroom
    -- the second stack is full, and the first one is too just if it has the same limit
    by_cases heq : upper = lower
    · have hu : upper = some l := heq.trans hl
      exact .inl (Step.agree_of_error (push_of_full hu hd slot) (push_of_full hl hd slot)
        ⟨rfl, rfl, rfl⟩)
    · exact .inr ⟨_, _, push_of_full hl hd slot, l, hl, heq, rfl⟩

/-- Only a push looks at the limit. -/
theorem Basic.outlasts (hle : AtMost lower upper) {x : EStateM Error (Stack ν) α} (hx : Basic x) :
    Step.Follows (Roomier upper lower) (Overflown upper lower) x x := by
  refine ⟨fun {s s'} h => ?_, Step.leads_iff.mpr fun _ _ _ h => h⟩
  cases hx with
  | push slot => exact push_outlasts hle h slot
  | pop op | popNode op | topNode op =>
    obtain ⟨slots, _⟩ := s
    obtain ⟨slots', _⟩ := s'
    obtain ⟨rfl, rfl, rfl⟩ := h
    match slots with
    | [] => exact .inl ⟨rfl, rfl, rfl, rfl⟩
    | none :: rest => exact .inl ⟨rfl, rfl, rfl, rfl⟩
    | some _ :: rest => exact .inl ⟨rfl, rfl, rfl, rfl⟩

end Stack

/-- Whatever the document is told leads it along `D`. -/
structure Host.Along (H : Host δ ν β) (D : δ → δ → Prop) : Prop where
  chains : Chains D
  perform : ∀ {k : Reply} (c : HostCall ν β k), Leads D (H.perform c)

theorem Host.Along.chores {D : δ → δ → Prop} (h : H.Along D) :
    Scene.Chores (τ := τ) H fun c c' => D c.doc c'.doc :=
  Scene.chores_of_doc h.chains fun c _ => h.perform c

namespace Machine

variable {mem : Binary.Bytes} {traced traced' : Bool}

/-! ## Within the limit -/

theorem deeds_staysWithin : Deeds (τ := τ) H fun m m' => m.stack.StaysWithin m'.stack :=
  .ofStack Stack.chains_staysWithin Stack.Basic.staysWithin

theorem stores_staysWithin :
    Stores fun m m' : Machine δ ν β τ => m.stack.StaysWithin m'.stack :=
  fun _ _ _ => ⟨rfl, id⟩

theorem notes_staysWithin :
    Notes fun m m' : Machine δ ν β τ => m.stack.StaysWithin m'.stack :=
  fun _ _ _ => ⟨rfl, id⟩

theorem exec_staysWithin (mem : Binary.Bytes) (i : Instr) :
    Leads (fun m m' : Machine δ ν β τ => m.stack.StaysWithin m'.stack) (exec H mem i) :=
  exec_leads deeds_staysWithin mem i fun _ _ _ _ => stores_staysWithin

/-- Whatever a run comes to on the way keeps to the limit of its stack, before each instruction and
after it. -/
theorem staysWithin_of_executions {spans : List Span} {m : Machine δ ν β τ}
    {execution : Machine δ ν β τ × Instr} (he : execution ∈ executionsAll H mem traced spans m) :
    m.stack.StaysWithin execution.1.stack ∧
      m.stack.StaysWithin (Step.after (exec H mem execution.2) execution.1).stack := by
  have hcome := executionsAll_leads (H := H) deeds_staysWithin stores_staysWithin
    notes_staysWithin he
  have hexec := Step.leads_iff.mp (exec_staysWithin (H := H) mem execution.2) execution.1
  exact ⟨hcome, Stack.chains_staysWithin.trans hcome hexec⟩

/-! ## Two limits -/

/-- The machines differ in the limits of their stacks and in their journals at most. -/
structure Roomier (upper lower : Option Nat) (m m' : Machine δ ν β τ) : Prop where
  scene : m.toScene.Alike m'.toScene
  stack : m.stack.Roomier upper lower m'.stack
  strings : m.strings = m'.strings

/-- The stack of the second machine has overflown. The document of the first machine has gone on
along `D`. -/
def Overflown (D : δ → δ → Prop) (upper lower : Option Nat) (m : Machine δ ν β τ) (e : Error)
    (m' : Machine δ ν β τ) : Prop :=
  m.stack.Overflown upper lower e m'.stack ∧ D m'.doc m.doc

/-- The first step does on a machine with more room what the second one does, and goes on where
that one overflows. -/
abbrev Outlasts (D : δ → δ → Prop) (upper lower : Option Nat) (x y : Act δ ν β τ α) : Prop :=
  Step.Follows (Roomier upper lower) (Overflown D upper lower) x y

section Outlasts

variable {D : δ → δ → Prop} {upper lower : Option Nat} {m m' : Machine δ ν β τ}

theorem lasting_of_leads (hH : H.Along D) {x : Act δ ν β τ α}
    (h : Leads (fun m m' => D m.doc m'.doc) x) :
    Leads (Lasting (Overflown D upper lower)) x := by
  rw [Step.leads_iff] at h ⊢
  rintro m e m' ⟨hfull, hD⟩
  exact ⟨hfull, hH.chains.trans hD (h m)⟩

/-- Steps of the scene do not look at the stack. -/
theorem onScene_outlasts (hH : H.Along D) {x : Scene.Act δ ν β τ α}
    (h : ∀ {c c'}, c.Alike c' → Agree Scene.Alike x x c c')
    (hx : Leads (fun c c' => D c.doc c'.doc) x) :
    Outlasts D upper lower (onScene x) (onScene x) := by
  refine Step.follows_of_agree (fun hm => ?_) (lasting_of_leads hH ?_)
  · exact Step.agree_onPart (h hm.scene) fun _ _ hc => ⟨hc, hm.stack, hm.strings⟩
  · exact Step.leads_onPart hx fun _ _ h => h

theorem onStack_outlasts (hH : H.Along D) (hle : Stack.AtMost lower upper)
    {x : EStateM Error (Stack ν) α} (hx : Stack.Basic x) :
    Outlasts (τ := τ) (β := β) D upper lower (onStack x) (onStack x) :=
  Step.follows_onPart (hx.outlasts hle) (fun hm => hm.stack)
    (fun hm hs => ⟨hm.scene, hs, hm.strings⟩)
    (fun {m _ _ _ _} hm hfull => ⟨hfull, hm.scene.doc ▸ hH.chains.refl m.doc⟩)
    fun _ _ _ _ _ h => h

theorem call_outlasts (hH : H.Along D) {k : Reply} (c : HostCall ν β k) :
    Outlasts (τ := τ) D upper lower (call H c) (call H c) :=
  onScene_outlasts hH (Scene.call_agree · c) (Scene.leads_call_of_doc (hH.perform c))

theorem string_outlasts (id : UInt32) :
    Outlasts (δ := δ) (ν := ν) (β := β) (τ := τ) D upper lower (string id) (string id) :=
  Step.follows_look strings strings (fun t => Step.ofExcept (t.get id))
    (fun t => Step.ofExcept (t.get id)) (fun hm => hm.strings) fun _ => Step.follows_ofExcept _

theorem composes_outlasts :
    Composes (fun (x y : Act δ ν β τ _) => Outlasts D upper lower x y) where
  bind := Step.Follows.bind
  ofExcept _ := Step.follows_ofExcept _

theorem sight_of_alike {ω : Type} {v w : δ → ω} (h : H.Sight H v w) : v = w := by
  cases h <;> rfl

theorem congruence_outlasts (hH : H.Along D) (hle : Stack.AtMost lower upper) :
    Congruence H H (fun (x y : Act δ ν β τ _) => Outlasts D upper lower x y) where
  toComposes := composes_outlasts
  stack := onStack_outlasts hH hle
  string := string_outlasts
  look := fun {_ _ v w} hv f g hf =>
    Step.follows_look (fun m => v m.doc) (fun m' => w m'.doc) f g
      (fun hm => sight_of_alike hv ▸ congrArg v hm.scene.doc) hf
  call c _ := call_outlasts hH c
  dress _ _ _ := composes_outlasts.callFollow (call_outlasts hH _) (fun _ => call_outlasts hH _) _
  undress _ _ := composes_outlasts.callFollow (call_outlasts hH _) (fun _ => call_outlasts hH _) _
  attach _ _ _ := onScene_outlasts hH (Scene.attach_agree · _ _ _) (hH.chores.attach _ _ _)
  update _ _ _ := onScene_outlasts hH (Scene.update_agree · _ _ _) (hH.chores.update _ _ _)
  detach _ _ := onScene_outlasts hH (Scene.detach_agree · _ _) (hH.chores.detach _ _)

theorem Roomier.noted (h : m.Roomier upper lower m') (traced traced' : Bool) (offset : Nat)
    (i : Instr) : (m.noted traced offset i).Roomier upper lower (m'.noted traced' offset i) := by
  cases traced <;> cases traced' <;> exact ⟨⟨h.scene.doc, h.scene.listeners⟩, h.stack, h.strings⟩

theorem exec_outlasts (hH : H.Along D) (hle : Stack.AtMost lower upper) (i : Instr) :
    Outlasts (τ := τ) D upper lower (exec H mem i) (exec H mem i) :=
  exec_congr (congruence_outlasts hH hle) mem i fun _ _ id _ text =>
    Step.follows_modify (R := Roomier upper lower) (B := Overflown D upper lower)
      (fun hm => ⟨hm.scene, hm.stack, congrArg (StringTable.add · text id) hm.strings⟩)
      fun _ _ _ h => h

/-- Whether an instruction is noted makes no difference. -/
theorem attempt_outlasts (hH : H.Along D) (hle : Stack.AtMost lower upper) (offset : Nat)
    (i : Instr) : Outlasts (τ := τ) D upper lower (attempt H mem traced offset i)
      (attempt H mem traced' offset i) := by
  have hexec : Outlasts (τ := τ) D upper lower (exec H mem i) (exec H mem i) :=
    exec_outlasts hH hle i
  constructor
  · intro m m' hm
    have hnext := hexec.along (hm.noted traced traced' offset i)
    unfold Agree Step.after at hnext ⊢
    rwa [attempt_eq, attempt_eq]
  · rw [Step.leads_iff]
    -- a notice changes neither the document nor the stack
    rintro m e m' ⟨hfull, hD⟩
    have hlast := Step.leads_iff.mp hexec.lasting (m.noted traced offset i)
    unfold Step.after at hlast ⊢
    rw [attempt_eq]
    exact hlast e m' ⟨hfull, m.doc_noted offset ▸ hD⟩

/-- Two machines with different limits run the same ranges alike, until the one with the lower limit
has no room for a slot. -/
theorem runAll_outlasts (hH : H.Along D) (hle : Stack.AtMost lower upper) (spans : List Span) :
    Outlasts (τ := τ) D upper lower (runAll H mem traced spans) (runAll H mem traced' spans) :=
  @runAll_congr δ δ ν β τ H H (fun x y => Outlasts D upper lower x y) mem traced traced'
    composes_outlasts (attempt_outlasts hH hle) spans

end Outlasts

end Machine

end TreeEdit
