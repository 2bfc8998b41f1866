import TreeEdit.Proofs.Machine.Executions
import TreeEdit.Proofs.Machine.Moves

/-!
# Runs are moves

Every instruction is some moves, whatever its operands; from that, by induction on what is left to
read, every range is. A run that fails has made moves up to there.
-/

namespace TreeEdit.Machine

open Document (host)

variable {κ τ α : Type} {wrap : ListenerId → κ} {s : Site κ}
  {m : Machine (Document κ) NodeId Nat τ}

/-! ## Steps that stay in the scene -/

/-- The step makes moves from where the machine stands, or fails on the way. -/
def Goes (wrap : ListenerId → κ) (s : Site κ) (x : Act (Document κ) NodeId Nat τ α)
    (m : Machine (Document κ) NodeId Nat τ) : Prop :=
  Step.Ends x m (fun _ m' => Stands wrap s m'.toScene m'.stack.slots)
    fun e m' => Halts wrap s e m'.toScene

/-- A call that the slots prompt, from where the step before left the machine. The slots to work
with may be others than those on the stack. -/
theorem call_stands {k : Reply} {st : List (Option NodeId)} (h : Stands wrap s m.toScene st)
    {c : HostCall NodeId Nat k} {next : k.Of NodeId Nat → List (Option NodeId)}
    (hp : Prompts m.doc st c next) {Q : k.Of NodeId Nat → Machine (Document κ) NodeId Nat τ → Prop}
    (hQ : ∀ a d, Stands wrap s { m.toScene with doc := d } (next a) → Q a { m with doc := d }) :
    Step.Ends (call (host wrap) c) m Q fun e m' => Halts wrap s e m'.toScene := by
  rw [ends_call]
  exact (h.perform hp).mono hQ fun e d he => he

/-- A call that leaves the node on top where it is. -/
theorem callTop_goes {n : NodeId} {st : List (Option NodeId)}
    (h : Stands wrap s m.toScene m.stack.slots) (hst : m.stack.slots = some n :: st)
    {c : HostCall NodeId Nat .done} (hp : Prompts m.doc (some n :: st) c fun _ => some n :: st) :
    Goes wrap s (call (host wrap) c) m := by
  rw [hst] at h
  refine call_stands h hp fun _ d hd => ?_
  rw [← hst] at hd
  exact hd

theorem onScene_goes {x : Scene.Act (Document κ) NodeId Nat τ α}
    (hx : Step.Ends x m.toScene (fun _ c => Stands wrap s c m.stack.slots)
      fun e c => Halts wrap s e c) : Goes wrap s (onScene x) m := by
  rw [Goes, ends_onScene]
  exact hx

/-! ## Instructions -/

theorem follow_goes {n : NodeId} {st : List (Option NodeId)}
    (h : Stands wrap s m.toScene m.stack.slots) (hst : m.stack.slots = some n :: st)
    (property : Option Property) : Goes wrap s (follow (host wrap) n property) m := by
  cases property with
  | none => exact h
  | some property =>
    exact callTop_goes h hst (.setProperty n property st)

/-- A call, and the call to the live property after it. -/
theorem callFollow_goes {n : NodeId} {st : List (Option NodeId)}
    (h : Stands wrap s m.toScene m.stack.slots) (hst : m.stack.slots = some n :: st)
    {c : HostCall NodeId Nat .done} (hp : Prompts m.doc (some n :: st) c fun _ => some n :: st)
    (property : Option Property) :
    Goes wrap s (do call (host wrap) c; follow (host wrap) n property) m := by
  rw [Goes, Step.ends_bind]
  rw [hst] at h
  refine call_stands h hp fun _ d hd => ?_
  rw [← hst] at hd
  exact follow_goes (m := { m with doc := d }) hd hst property

/-- The nodes are no longer on the stack while they are removed; only what is below them is. -/
theorem removeFrom_goes (steps : Nat) (n : NodeId)
    (h : Stands wrap s m.toScene (some n :: m.stack.slots)) :
    Goes wrap s (removeFrom (host wrap) steps n) m := by
  -- on the number of nodes to remove; the node at hand stands for one more slot
  induction steps generalizing n m with
  | zero => exact h.move (.pop _ _ _)
  | succ steps ih =>
    unfold Goes
    rw [removeFrom, Step.ends_bind, Step.ends_get, Step.ends_bind]
    refine call_stands h (.remove n _) fun _ d hd => ?_
    have hnext : Stands wrap s { m.toScene with doc := d }
        ((host wrap).nextSibling m.doc n :: m.stack.slots) := hd
    split
    · rename_i sibling hs
      rw [hs] at hnext
      exact ih sibling hnext
    · rename_i hs
      rw [hs] at hnext
      exact hnext.move (.pop _ _ _)

/-- Whatever an instruction is, it makes moves. -/
theorem exec_goes (h : Stands wrap s m.toScene m.stack.slots) (mem : Binary.Bytes) (i : Instr) :
    Goes wrap s (exec (host wrap) mem i) m := by
  -- looking things up and moving slots leaves the scene as it is, so that a failure there halts
  have own (e : Error) (he : e.OfLookup) : Halts wrap s e m.toScene := h.halts he.own
  unfold Goes
  cases i with
  | setText ptr len =>
    rw [exec, Step.ends_bind]
    refine ends_textAt (fun text _ => ?_) own
    rw [Step.ends_bind]
    refine ends_topNode (fun n st hst => ?_) own
    exact callTop_goes h hst (.setText n text st)
  | removeSelfAndNextSiblings =>
    rw [exec, Step.ends_bind]
    refine ends_popNode (fun n st hst => ?_) fun e _ he => own e he
    rw [hst] at h
    rw [Step.ends_bind, Step.ends_get]
    exact removeFrom_goes _ n h
  | replaceWith =>
    rw [exec, Step.ends_bind]
    refine ends_popNode (fun new st₁ h₁ => ?_) fun e _ he => own e he
    rw [Step.ends_bind]
    refine ends_popNode (fun old st h₂ => ?_) fun e _ he => own e he
    rw [slots_withSlots] at h₂
    rw [h₁, h₂] at h
    rw [Step.ends_bind]
    refine call_stands (m := (m.withSlots st₁).withSlots st) h (.replace old new st)
      fun _ d hd => ?_
    exact ends_push hd fun e he => hd.halts he
  | setAttribute name value =>
    rw [exec, Step.ends_bind]
    refine ends_topNode (fun n st hst => ?_) own
    rw [Step.ends_bind]
    refine ends_string (fun name _ => ?_) own
    rw [Step.ends_bind]
    refine ends_string (fun value _ => ?_) own
    exact callFollow_goes h hst (.setAttribute n name value st) _
  | removeAttribute name =>
    rw [exec, Step.ends_bind]
    refine ends_topNode (fun n st hst => ?_) own
    rw [Step.ends_bind]
    refine ends_string (fun name _ => ?_) own
    exact callFollow_goes h hst (.removeAttribute n name st) _
  | pushFirstChild =>
    rw [exec, Step.ends_bind]
    refine ends_topNode (fun n st hst => ?_) own
    rw [Step.ends_bind, Step.ends_get]
    refine ends_push ?_ fun e he => h.halts he
    rw [hst] at h ⊢
    exact h.move (.firstChild _ n st)
  | popPushNextSibling =>
    rw [exec, Step.ends_bind]
    refine ends_popNode (fun n st hst => ?_) fun e _ he => own e he
    rw [hst] at h
    rw [Step.ends_bind, Step.ends_get]
    exact ends_push (h.move (.nextSibling _ n st)) fun e he => h.halts he
  | pop =>
    rw [exec, Step.ends_bind]
    refine ends_pop (fun slot st hst => ?_) own
    rw [hst] at h
    exact h.move (.pop _ slot st)
  | appendChild =>
    rw [exec, Step.ends_bind]
    refine ends_popNode (fun c st₁ h₁ => ?_) fun e _ he => own e he
    rw [Step.ends_bind]
    refine ends_topNode (fun p st h₂ => ?_) own
    rw [slots_withSlots] at h₂
    rw [h₁, h₂] at h
    refine call_stands (m := m.withSlots st₁) h (.append p c st) fun _ d hd => ?_
    rw [← h₂] at hd
    exact hd
  | createText ptr len =>
    rw [exec, Step.ends_bind]
    refine ends_textAt (fun text _ => ?_) own
    rw [Step.ends_bind]
    refine call_stands h (.createText text _) fun id d hd => ?_
    exact ends_push hd fun e he => hd.halts he
  | createElement tag =>
    rw [exec, Step.ends_bind]
    refine ends_string (fun tag _ => ?_) own
    rw [Step.ends_bind]
    refine call_stands h (.createElement tag _) fun id d hd => ?_
    exact ends_push hd fun e he => hd.halts he
  | newListener event a b =>
    rw [exec, Step.ends_bind]
    refine ends_topNode (fun n st hst => ?_) own
    rw [Step.ends_bind]
    refine ends_string (fun eventType _ => ?_) own
    rw [hst] at h
    refine onScene_goes ?_
    rw [hst]
    exact Scene.attach_stands h eventType (a, b)
  | updateListener event a b =>
    rw [exec, Step.ends_bind]
    refine ends_topNode (fun n st hst => ?_) own
    rw [Step.ends_bind, Step.ends_get, Step.ends_bind]
    refine ends_string (fun eventType _ => ?_) own
    exact onScene_goes (Scene.update_stands h _ eventType (a, b))
  | removeListener event =>
    rw [exec, Step.ends_bind]
    refine ends_topNode (fun n st hst => ?_) own
    rw [Step.ends_bind]
    refine ends_string (fun eventType _ => ?_) own
    rw [hst] at h
    refine onScene_goes ?_
    rw [hst]
    exact Scene.detach_stands h eventType
  | addString ptr len id =>
    rw [exec, Step.ends_bind]
    exact ends_textAt (fun text _ => h) own

/-! ## Ranges -/

/-- A step from where the step before has come to. -/
theorem Goes.bind {β : Type} {x : Act (Document κ) NodeId Nat τ α}
    {f : α → Act (Document κ) NodeId Nat τ β} (hx : Goes wrap s x m)
    (hf : ∀ a m', Stands wrap s m'.toScene m'.stack.slots → Goes wrap s (f a) m') :
    Goes wrap s (x >>= f) m := by
  rw [Goes, Step.ends_bind]
  exact Step.Ends.mono hx hf fun e m' he => he

/-- Noting an attempt moves nothing. -/
theorem noted_stands (h : Stands wrap s m.toScene m.stack.slots) (traced : Bool) (offset : Nat)
    (i : Instr) : Stands wrap s (m.noted traced offset i).toScene
      (m.noted traced offset i).stack.slots := by
  cases traced <;> exact ⟨h.moves, h.keyed⟩

theorem runFrom_goes (mem : Binary.Bytes) (traced : Bool) (c : Binary.Cursor) (executed : Nat)
    (h : Stands wrap s m.toScene m.stack.slots) :
    Goes wrap s (runFrom (host wrap) mem traced c executed) m := by
  induction c using cursor_induction generalizing executed m with
  | ended c hend =>
    rw [runFrom_of_end hend]
    exact h
  | fault c f c' hend hr =>
    rw [runFrom_of_fault hend hr]
    exact h.halts nofun
  | past c i c' hr ih =>
    have hattempt : Goes wrap s (attempt (host wrap) mem traced c.offset i) m := by
      rw [Goes, Step.Ends, attempt_eq]
      exact exec_goes (noted_stands h traced c.offset i) mem i
    rw [runFrom_of_read hr]
    exact hattempt.bind fun _ m' h' => ih (executed + 1) h'

theorem runRange_goes (mem : Binary.Bytes) (traced : Bool) (span : Span)
    (h : Stands wrap s m.toScene m.stack.slots) :
    Goes wrap s (runRange (host wrap) mem traced span) m := by
  rw [runRange, Goes, Step.ends_bind, Step.ends_ofExcept]
  refine ⟨fun c _ => runFrom_goes mem traced c 0 h, fun e he => h.halts ?_⟩
  exact (Error.ofLookup_of_mapError he).own

theorem runAll_goes (mem : Binary.Bytes) (traced : Bool) (spans : List Span)
    (h : Stands wrap s m.toScene m.stack.slots) :
    Goes wrap s (runAll (host wrap) mem traced spans) m := by
  induction spans generalizing m with
  | nil => exact h
  | cons span spans ih =>
    rw [runAll]
    refine (runRange_goes mem traced span h).bind fun first m' h' => ?_
    exact (ih h').bind fun later m'' h'' => h''

end TreeEdit.Machine
