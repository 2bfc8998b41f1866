import TreeEdit.Proofs.Machine.Executions
import TreeEdit.Proofs.Steps
import TreeEdit.Session

/-!
# How the steps of a session end

Steps of a session on any host: how a step of its machine ends, what a session that is over does,
and what an application makes of the run that it is about (`apply_of_active`).
-/

namespace TreeEdit.Session

open Binary (Bytes)

variable {δ ν β τ α : Type} {H : Host δ ν β} {s : Session δ ν β τ}
  {E : Error → Session δ ν β τ → Prop}

theorem ends_onMachine {x : Machine.Act δ ν β τ α} {Q : α → Session δ ν β τ → Prop} :
    Step.Ends (onMachine x) s Q E ↔
      Step.Ends x s.toMachine (fun a m => Q a { s with toMachine := m })
        fun e m => E e { s with toMachine := m } :=
  Step.ends_onPart

theorem ensureActive_of_active (h : s.lifecycle = .active) :
    (ensureActive : Act δ ν β τ Unit) s = .ok () s := by
  rw [ensureActive, Step.get_bind, h]
  rfl

theorem ensureActive_of_unmounted (h : s.lifecycle = .unmounted) :
    (ensureActive : Act δ ν β τ Unit) s = .error .unmounted s := by
  rw [ensureActive, Step.get_bind, h]
  rfl

theorem ends_ensureActive {Q : Unit → Session δ ν β τ → Prop}
    (hQ : s.lifecycle = .active → Q () s) (hE : E .unmounted s) :
    Step.Ends ensureActive s Q E := by
  cases h : s.lifecycle with
  | active =>
    rw [Step.Ends, ensureActive_of_active h]
    exact hQ h
  | unmounted =>
    rw [Step.Ends, ensureActive_of_unmounted h]
    exact hE

/-- The answer of a run whose ranges have all been run. A strict session has it only if no more than
one slot is left. -/
def settle (config : Config) (executed : Nat) : Act δ ν β τ Nat := do
  let depth := (← get).stack.depth
  if config.strictStack ∧ depth > 1 then throw (.unbalancedStack depth)
  return executed

theorem settle_of_balanced {config : Config} (h : ¬(config.strictStack ∧ s.stack.depth > 1))
    (executed : Nat) : settle config executed s = .ok executed s := by
  rw [settle, Step.get_bind, if_neg h]
  rfl

theorem run_eq (mem : Bytes) : (run H mem : Act δ ν β τ Nat) = (do
    let s ← get
    onMachine (Machine.onStack (Stack.push (H.rootSeed s.doc s.root)))
    let executed ← onMachine (Machine.runAll H mem s.config.traced s.pending)
    settle s.config executed) := rfl

/-- A session whose run is over, with a notice of how it went. -/
def closed (s : Session δ ν β τ) (notice : Notice) : Session δ ν β τ :=
  { s with pending := [], stack := s.stack.clear, journal := s.journal.push notice }

/-- An application of queued ranges ends as their run does. -/
theorem apply_of_active (ha : s.lifecycle = .active) (hp : s.pending ≠ []) (mem : Bytes) :
    apply H mem s =
      match run H mem s with
      | .ok executed s' => .ok () (s'.closed (.applied s.pending.length executed))
      | .error e s' => .error e (s'.closed (.interrupted s.pending.length e)) := by
  have hlen : s.pending.length ≠ 0 := fun h => hp (List.eq_nil_of_length_eq_zero h)
  rw [apply, Step.bind_ok (ensureActive_of_active ha), Step.get_bind,
    if_pos hlen]
  cases hrun : run H mem s with
  | ok executed s' =>
    rw [Step.bind_ok (Step.outcome_ok hrun)]
    rfl
  | error e s' =>
    rw [Step.bind_ok (Step.outcome_error hrun)]
    rfl

/-- Without queued ranges nothing happens. -/
theorem apply_of_idle (ha : s.lifecycle = .active) (hp : s.pending = []) (mem : Bytes) :
    apply H mem s = .ok () s := by
  rw [apply, Step.bind_ok (ensureActive_of_active ha), Step.get_bind, hp]
  rfl

/-! ## What a run does on its machine -/

/-- What a run does before it looks at the depth of the stack. -/
def work (H : Host δ ν β) (mem : Bytes) (s : Session δ ν β τ) : Machine.Act δ ν β τ Nat := do
  Machine.onStack (Stack.push (H.rootSeed s.doc s.root))
  Machine.runAll H mem s.config.traced s.pending

theorem onMachine_bind {γ : Type} (x : Machine.Act δ ν β τ α) (f : α → Machine.Act δ ν β τ γ) :
    onMachine (x >>= f) = (onMachine x >>= fun a => onMachine (f a)) := by
  funext s
  cases hx : x s.toMachine with
  | ok a m =>
    have hfirst : onMachine x s = .ok a { s with toMachine := m } := Step.onPart_ok hx
    rw [Step.bind_ok hfirst]
    show Step.onPart _ _ (x >>= f) s = Step.onPart _ _ (f a) { s with toMachine := m }
    unfold Step.onPart
    rw [Step.bind_ok hx]
  | error e m =>
    have hfirst : onMachine x s = .error e { s with toMachine := m } := Step.onPart_error hx
    rw [Step.bind_error hfirst]
    exact Step.onPart_error (Step.bind_error hx)

theorem run_eq_work (mem : Bytes) (s : Session δ ν β τ) :
    run H mem s = (onMachine (work H mem s) >>= settle s.config) s := by
  rw [run_eq, Step.get_bind, work, onMachine_bind, bind_assoc]

variable {mem : Bytes} {m m' : Machine δ ν β τ} {executed : Nat} {e : Error}

/-- Of a run that comes to its end, only the slots that are left remain to be looked at. -/
theorem run_of_work_ok (h : work H mem s s.toMachine = .ok executed m) :
    run H mem s = settle s.config executed { s with toMachine := m } := by
  have hmachine : onMachine (work H mem s) s = .ok executed { s with toMachine := m } :=
    Step.onPart_ok h
  rw [run_eq_work, Step.bind_ok hmachine]

theorem run_of_work_error (h : work H mem s s.toMachine = .error e m) :
    run H mem s = .error e { s with toMachine := m } := by
  have hmachine : onMachine (work H mem s) s = .error e { s with toMachine := m } :=
    Step.onPart_error h
  rw [run_eq_work, Step.bind_error hmachine]

theorem run_of_runAll
    (hpush : Machine.onStack (Stack.push (H.rootSeed s.doc s.root)) s.toMachine = .ok () m)
    (hall : Machine.runAll H mem s.config.traced s.pending m = .ok executed m')
    (hdepth : ¬(s.config.strictStack ∧ m'.stack.depth > 1)) :
    run H mem s = .ok executed { s with toMachine := m' } := by
  have hwork : work H mem s s.toMachine = .ok executed m' := (Step.bind_ok hpush).trans hall
  rw [run_of_work_ok hwork]
  exact settle_of_balanced hdepth executed

theorem run_of_runAll_error
    (hpush : Machine.onStack (Stack.push (H.rootSeed s.doc s.root)) s.toMachine = .ok () m)
    (hall : Machine.runAll H mem s.config.traced s.pending m = .error e m') :
    run H mem s = .error e { s with toMachine := m' } :=
  run_of_work_error ((Step.bind_ok hpush).trans hall)

theorem settle_cases (config : Config) (executed : Nat) (s : Session δ ν β τ) :
    settle config executed s = .ok executed s ∨
      settle config executed s = .error (.unbalancedStack s.stack.depth) s := by
  by_cases h : config.strictStack ∧ s.stack.depth > 1
  · rw [settle, Step.get_bind, if_pos h]
    exact .inr rfl
  · exact .inl (settle_of_balanced h executed)

/-- A run changes nothing of a session but its machine. -/
theorem after_run (mem : Bytes) (s : Session δ ν β τ) : Step.after (run H mem) s
    = { s with toMachine := Step.after (work H mem s) s.toMachine } := by
  unfold Step.after
  cases hw : work H mem s s.toMachine with
  | ok executed m =>
    rw [run_of_work_ok hw]
    rcases settle_cases s.config executed { s with toMachine := m } with h | h <;> rw [h]
  | error e m => rw [run_of_work_error hw]

/-- What an application leaves behind is what its run leaves behind, with the queue and the stack
emptied. -/
theorem exists_after_apply (ha : s.lifecycle = .active) (hp : s.pending ≠ []) (mem : Bytes) :
    ∃ notice, Step.after (apply H mem) s = (Step.after (run H mem) s).closed notice := by
  unfold Step.after
  rw [apply_of_active ha hp]
  cases run H mem s with
  | ok executed t => exact ⟨_, rfl⟩
  | error e t => exact ⟨_, rfl⟩

theorem after_apply_of_active (ha : s.lifecycle = .active) (hp : s.pending ≠ []) (mem : Bytes) :
    ∃ notice, Step.after (apply H mem) s
      = { s with toMachine := Step.after (work H mem s) s.toMachine }.closed notice := by
  obtain ⟨notice, h⟩ := exists_after_apply (H := H) ha hp mem
  exact ⟨notice, h.trans (congrArg (closed · notice) (after_run mem s))⟩

/-- What an application executes. That is nothing if the session is over, or if its stack has no
room for the node to start from. -/
def executions (H : Host δ ν β) (mem : Bytes) (s : Session δ ν β τ) :
    List (Machine δ ν β τ × Instr) :=
  match s.lifecycle, Machine.onStack (Stack.push (H.rootSeed s.doc s.root)) s.toMachine with
  | .active, .ok _ m => Machine.executionsAll H mem s.config.traced s.pending m
  | _, _ => []

end TreeEdit.Session
