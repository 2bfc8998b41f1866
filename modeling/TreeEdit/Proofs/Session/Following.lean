import TreeEdit.Proofs.Machine.Following
import TreeEdit.Proofs.Session.Steps

/-!
# Sessions on hosts that follow one another

If a second host follows a first one, an application on the second goes as it does on the first, or
it is broken off at a call. Then the application has failed, and the session is left without queue
and with an empty stack like after any other error (`apply_follows`).
-/

namespace TreeEdit.Session

open Binary (Bytes)

variable {δ δ' ν β τ α : Type} {H : Host δ ν β} {H' : Host δ' ν β} {R : δ → δ' → Prop}
  {B : δ → HostError → δ' → Prop} {s : Session δ ν β τ} {s' : Session δ' ν β τ}

/-- The sessions differ in their documents, which `R` relates. -/
structure Paired (R : δ → δ' → Prop) (s : Session δ ν β τ) (s' : Session δ' ν β τ) : Prop where
  machine : s.toMachine.Paired R s'.toMachine
  root : s.root = s'.root
  pending : s.pending = s'.pending
  config : s.config = s'.config
  lifecycle : s.lifecycle = s'.lifecycle

theorem Paired.eq (h : s.Paired R s') : s' = { s with doc := s'.doc } := by
  obtain ⟨⟨⟨-, hlisteners, hjournal⟩, hstack, hstrings⟩, hroot, hpending, hconfig, hlifecycle⟩ := h
  rw [hlisteners, hjournal, hstack, hstrings, hroot, hpending, hconfig, hlifecycle]

/-- The second session has been broken off by its host. -/
def Broken (B : δ → HostError → δ' → Prop) (s : Session δ ν β τ) (e : Error)
    (s' : Session δ' ν β τ) : Prop :=
  Scene.Broken B s.toScene e s'.toScene

/-- The steps follow one another on paired sessions. -/
abbrev Pairs (R : δ → δ' → Prop) (B : δ → HostError → δ' → Prop) (x : Act δ ν β τ α)
    (y : Act δ' ν β τ α) : Prop :=
  Step.Follows (Paired R) (Broken B) x y

theorem onMachine_pairs {x : Machine.Act δ ν β τ α} {y : Machine.Act δ' ν β τ α}
    (h : Machine.Pairs R B x y) : Pairs R B (onMachine x) (onMachine y) :=
  Step.follows_onPart h (fun hs => hs.machine)
    (fun hs hm => ⟨hm, hs.root, hs.pending, hs.config, hs.lifecycle⟩) (fun _ hB => hB)
    fun _ _ h _ s' => h _ s'.toMachine

theorem settle_pairs (config : Config) (executed : Nat) :
    Pairs R B (settle config executed : Act δ ν β τ Nat) (settle config executed) := by
  refine Step.follows_look (R := Paired R) (B := Broken B)
    (fun s => s.stack.depth) (fun s => s.stack.depth)
    (fun depth => do
      if config.strictStack ∧ depth > 1 then throw (.unbalancedStack depth)
      return executed)
    (fun depth => do
      if config.strictStack ∧ depth > 1 then throw (.unbalancedStack depth)
      return executed)
    (fun hs => congrArg Stack.depth hs.machine.stack) fun depth => ?_
  by_cases h : config.strictStack ∧ depth > 1
  · rw [if_pos h, if_pos h]
    exact (Step.follows_throw _).bind fun _ => Step.follows_pure _
  · rw [if_neg h, if_neg h]
    exact (Step.follows_pure _).bind fun _ => Step.follows_pure _

theorem run_pairs (hH : H.Follows H' R B) (mem : Bytes) :
    Pairs (τ := τ) R B (run H mem) (run H' mem) := by
  rw [run_eq, run_eq]
  refine Step.follows_look (R := Paired R) (B := Broken B)
    (fun s => (H.rootSeed s.doc s.root, s.config, s.pending))
    (fun s => (H'.rootSeed s.doc s.root, s.config, s.pending))
    (fun p => do
      onMachine (Machine.onStack (Stack.push p.1))
      let executed ← onMachine (Machine.runAll H mem p.2.1.traced p.2.2)
      settle p.2.1 executed)
    (fun p => do
      onMachine (Machine.onStack (Stack.push p.1))
      let executed ← onMachine (Machine.runAll H' mem p.2.1.traced p.2.2)
      settle p.2.1 executed)
    (fun hs => ?_) fun p => ?_
  · rw [hH.rootSeed hs.machine.scene.doc, hs.root, hs.config, hs.pending]
  · exact (onMachine_pairs (Machine.onStack_pairs _)).bind fun _ =>
      (onMachine_pairs (Machine.runAll_pairs hH mem _ _)).bind fun _ => settle_pairs _ _

theorem Paired.closed (h : s.Paired R s') (notice : Notice) :
    (s.closed notice).Paired R (s'.closed notice) where
  machine := {
    scene := ⟨h.machine.scene.doc, h.machine.scene.listeners,
      congrArg (Array.push · notice) h.machine.scene.journal⟩
    stack := congrArg Stack.clear h.machine.stack
    strings := h.machine.strings }
  root := h.root
  pending := rfl
  config := h.config
  lifecycle := h.lifecycle

theorem apply_follows (hH : H.Follows H' R B) (mem : Bytes) (hs : s.Paired R s') :
    Step.Agree (Paired R) (apply H mem) (apply H' mem) s s' ∨
      ∃ e t', apply H' mem s' = .error e t' ∧ Broken B (Step.after (apply H mem) s) e t' ∧
        t'.pending = [] ∧ t'.stack.slots = [] := by
  cases ha : s.lifecycle with
  | unmounted =>
    have ha' : s'.lifecycle = .unmounted := hs.lifecycle ▸ ha
    exact .inl (Step.agree_of_error (Step.bind_error (ensureActive_of_unmounted ha))
      (Step.bind_error (ensureActive_of_unmounted ha')) hs)
  | active =>
    have ha' : s'.lifecycle = .active := hs.lifecycle ▸ ha
    by_cases hp : s.pending = []
    · have hp' : s'.pending = [] := hs.pending ▸ hp
      exact .inl (Step.agree_of_ok (apply_of_idle ha hp mem) (apply_of_idle ha' hp' mem) hs)
    have hp' : s'.pending ≠ [] := hs.pending ▸ hp
    have happly := apply_of_active (H := H) ha hp mem
    have happly' := apply_of_active (H := H') ha' hp' mem
    rw [← hs.pending] at happly'
    rcases (run_pairs hH mem).along hs with hagree | ⟨e, t', hrun', hB⟩
    · left
      rcases Step.agree_iff.mp hagree with
        ⟨n, t, t', hrun, hrun', ht⟩ | ⟨e, t, t', hrun, hrun', ht⟩
      · rw [hrun] at happly
        rw [hrun'] at happly'
        exact Step.agree_of_ok happly happly' (ht.closed _)
      · rw [hrun] at happly
        rw [hrun'] at happly'
        exact Step.agree_of_error happly happly' (ht.closed _)
    · obtain ⟨notice, hafter⟩ := exists_after_apply (H := H) ha hp mem
      rw [hrun'] at happly'
      refine .inr ⟨e, _, happly', ?_, rfl, rfl⟩
      rw [hafter]
      exact hB

end TreeEdit.Session
