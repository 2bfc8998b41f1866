import TreeEdit.Proofs.Machine.Balance
import TreeEdit.Proofs.Session.Configurations

/-!
# Applications in balance

An application starts from a stack with one slot. From there on the opcodes of what it executes
account for every depth, whatever the document holds and answers: for the depth in front of each
instruction, for a slot that is missing, and for the verdict on the slots that are left
(`balance_of_apply`).
-/

namespace TreeEdit.Session

open Binary (Bytes)
open Machine (Balanced FallsShort netOf)

variable {δ ν β τ : Type} {H : Host δ ν β} {mem : Bytes} {s : Session δ ν β τ} {c : Config}
  {e : Error}

/-! ## The work of an application -/

theorem executions_of_push {m : Machine δ ν β τ} (ha : s.lifecycle = .active)
    (hpush : Machine.onStack (Stack.push (H.rootSeed s.doc s.root)) s.toMachine = .ok () m) :
    executions H mem s = Machine.executionsAll H mem s.config.traced s.pending m := by
  rw [executions, ha, hpush]

theorem executions_of_full {m : Machine δ ν β τ}
    (hpush : Machine.onStack (Stack.push (H.rootSeed s.doc s.root)) s.toMachine = .error e m) :
    executions H mem s = [] := by
  rw [executions]
  split
  · rename_i m' _ h
    cases hpush.symm.trans h
  · rfl

theorem executions_of_unmounted (h : s.lifecycle = .unmounted) : executions H mem s = [] := by
  rw [executions, h]

/-- The first slot is there before anything is executed. -/
theorem work_tallies (ha : s.lifecycle = .active) (hs : s.stack.slots = []) :
    Balanced 1 (executions H mem s) ∧
      Step.Ends (work H mem s) s.toMachine
        (fun _ m => (m.stack.depth : Int) = 1 + netOf (executions H mem s))
        fun e _ => ∀ op, e = .stackUnderflow op → FallsShort H mem op (executions H mem s) := by
  rw [work, Step.Ends]
  rcases Machine.push_cases (H.rootSeed s.doc s.root) s.toMachine with h | ⟨limit, h⟩
  · obtain ⟨hbalanced, hends⟩ := Machine.runAll_tallies (H := H) mem s.config.traced s.pending
      (s.toMachine.withSlots (H.rootSeed s.doc s.root :: s.stack.slots))
    have hdepth : (s.toMachine.withSlots (H.rootSeed s.doc s.root :: s.stack.slots)).stack.depth
        = 1 := congrArg (fun slots => (_ :: slots).length) hs
    rw [hdepth] at hbalanced hends
    rw [executions_of_push ha h, Step.bind_ok h]
    exact ⟨hbalanced, hends⟩
  · rw [executions_of_full h, Step.bind_error h]
    exact ⟨trivial, fun op he => absurd he (Error.notUnderflow_overflow limit op)⟩

theorem balanced_executions (H : Host δ ν β) (mem : Bytes) (s : Session δ ν β τ)
    (hs : s.stack.slots = []) : Balanced 1 (executions H mem s) := by
  cases ha : s.lifecycle with
  | active => exact (work_tallies ha hs).1
  | unmounted =>
    rw [executions_of_unmounted ha]
    trivial

/-- Work that comes to its end leaves what the opcodes say. -/
theorem depth_of_work (ha : s.lifecycle = .active) (hs : s.stack.slots = []) {executed : Nat}
    {m : Machine δ ν β τ} (hw : work H mem s s.toMachine = .ok executed m) :
    (m.stack.depth : Int) = 1 + netOf (executions H mem s) :=
  (Step.ends_iff.mp (work_tallies ha hs).2).1 executed m hw

/-! ## How it ends -/

/-- An error is one of the work, unless the session says it of its own. -/
theorem work_of_ending_error (h : ending (apply H mem) s = .error e) (hover : e ≠ .unmounted)
    (hverdict : ∀ depth, e ≠ .unbalancedStack depth) :
    s.lifecycle = .active ∧ ∃ m, work H mem s s.toMachine = .error e m := by
  rw [ending_apply] at h
  cases hcourse : course H mem s with
  | ok depth =>
    rw [hcourse] at h
    replace h : s.config.verdict depth = .error e := h
    rw [Config.verdict] at h
    split at h
    · cases h
      exact absurd rfl (hverdict depth)
    · cases h
  | error e' =>
    rw [hcourse] at h
    cases h
    rw [course] at hcourse
    split at hcourse
    · cases hcourse
      exact absurd rfl hover
    · cases hcourse
    · rename_i ha _
      split at hcourse
      · cases hcourse
      · rename_i e' m hw
        cases hcourse
        exact ⟨ha, m, hw⟩

/-- Of work that comes to its end, the slots that are left are all there is to say. -/
theorem ending_of_work (ha : s.lifecycle = .active) (hs : s.stack.slots = []) {executed : Nat}
    {m : Machine δ ν β τ} (hw : work H mem s s.toMachine = .ok executed m) :
    ending (apply H mem) s = s.config.verdict m.stack.depth := by
  rw [ending_apply]
  by_cases hp : s.pending = []
  · rw [(course_of_still (.inr hp) mem).2, ha, depth_of_idle hp hs hw,
      Config.verdict_of_le (Nat.le_refl 1)]
    exact Config.verdict_of_le (Nat.zero_le 1)
  · rw [course_of_active ha hp, hw]
    rfl

/-- What is left is too much just if the opcodes leave it, in a strict session. -/
theorem ending_eq_unbalanced_iff_net (hs : s.stack.slots = []) (depth : Nat) :
    ending (apply H mem) s = .error (.unbalancedStack depth) ↔
      s.lifecycle = .active ∧ (∃ executed m, work H mem s s.toMachine = .ok executed m) ∧
        s.config.strictStack = true ∧ 0 < netOf (executions H mem s) ∧
        (depth : Int) = 1 + netOf (executions H mem s) := by
  constructor
  · intro h
    have hstrict : s.config.strictStack = true := by
      by_contra hrelaxed
      rw [Bool.not_eq_true] at hrelaxed
      rw [ending_apply] at h
      cases hcourse : course H mem s with
      | error e =>
        rw [hcourse] at h
        cases h
        exact course_ne_unbalanced H mem s depth hcourse
      | ok n =>
        rw [hcourse] at h
        cases (Config.verdict_of_relaxed hrelaxed).symm.trans h
    obtain ⟨hcourse, hd⟩ := (ending_eq_unbalanced_iff hstrict H mem depth).mp h
    obtain ⟨ha, executed, m, hw, hm⟩ := (course_eq_ok_iff_work hs hd).mp hcourse
    have hnet := depth_of_work ha hs hw
    rw [hm] at hnet
    exact ⟨ha, ⟨executed, m, hw⟩, hstrict, by omega, hnet⟩
  · rintro ⟨ha, ⟨executed, m, hw⟩, hstrict, hpos, hdepth⟩
    have hnet := depth_of_work ha hs hw
    have hm : m.stack.depth = depth := by omega
    have hd : 1 < depth := by omega
    rw [ending_of_work ha hs hw, hm, Config.verdict_of_strict hstrict hd]

/-- Whatever the host, the configuration, the queue and the memory. The depth in front of every
instruction is one more than what the opcodes before it add up to. An instruction that needs more
slots than that fails, and only such a one finds no slot. Work that comes to its end is out of
balance just if the session is strict and the opcodes add up to more than nothing. -/
theorem balance_of_apply (H : Host δ ν β) (mem : Bytes) (s : Session δ ν β τ) (c : Config) :
    (∀ before m i after, executions H mem (s.configured c) = before ++ (m, i) :: after →
      (m.stack.depth : Int) = 1 + netOf before ∧
      (m.stack.depth < i.opcode.need → ∃ e m', Machine.exec H mem i m = .error e m') ∧
      ∀ op m', Machine.exec H mem i m = .error (.stackUnderflow op) m' →
        op = i.opcode ∧ m.stack.depth < i.opcode.need) ∧
    (∀ op, ending (apply H mem) (s.configured c) = .error (.stackUnderflow op) →
      ∃ before m i m', executions H mem (s.configured c) = before ++ [(m, i)] ∧
        Machine.exec H mem i m = .error (.stackUnderflow op) m' ∧
        op = i.opcode ∧ 1 + netOf before < i.opcode.need) ∧
    (∀ depth, ending (apply H mem) (s.configured c) = .error (.unbalancedStack depth) ↔
      s.lifecycle = .active ∧
      (∃ executed m, work H mem (s.configured c) (s.configured c).toMachine = .ok executed m) ∧
      c.strictStack = true ∧ 0 < netOf (executions H mem (s.configured c)) ∧
      (depth : Int) = 1 + netOf (executions H mem (s.configured c))) ∧
    ∀ executed m, s.lifecycle = .active →
      work H mem (s.configured c) (s.configured c).toMachine = .ok executed m →
      ¬(c.strictStack = true ∧ 0 < netOf (executions H mem (s.configured c))) →
        ending (apply H mem) (s.configured c) = .ok () := by
  have hexecution {before after : List (Machine δ ν β τ × Instr)} {m : Machine δ ν β τ} {i : Instr}
      (h : executions H mem (s.configured c) = before ++ (m, i) :: after) :
      (m.stack.depth : Int) = 1 + netOf before :=
    (h ▸ balanced_executions H mem (s.configured c) rfl).depth_eq
  refine ⟨fun before m i after h => ⟨hexecution h, Machine.exists_error_of_low H mem,
      fun op m' => Machine.low_of_underflow⟩,
    fun op hend => ?_, ending_eq_unbalanced_iff_net rfl, fun executed m ha hw hbalanced => ?_⟩
  · have hverdict : ∀ depth, Error.stackUnderflow op ≠ .unbalancedStack depth := by
      rintro depth ⟨⟩
    obtain ⟨ha, m', hw⟩ := work_of_ending_error hend (by rintro ⟨⟩) hverdict
    obtain ⟨before, m, i, m', hlist, hx⟩ :=
      (Step.ends_iff.mp (work_tallies ha rfl).2).2 _ m' hw op rfl
    obtain ⟨hop, hlow⟩ := Machine.low_of_underflow hx
    have hdepth := hexecution hlist
    exact ⟨before, m, i, m', hlist, hx, hop, by omega⟩
  · have hdepth := depth_of_work (s := s.configured c) ha rfl hw
    rw [ending_of_work (s := s.configured c) ha rfl hw]
    refine if_neg fun hover => hbalanced ⟨hover.1, ?_⟩
    have hmore := hover.2
    omega

open Document (host)

/-- One text is one slot too many for the session that has come up. -/
theorem balance_onLimits :
    onLimits.configured .standard = onLimits ∧
      netOf (executions (host id) oneText (onLimits.configured .standard)) = 1 ∧
      ending (apply (host id) oneText) (onLimits.configured .standard)
        = .error (.unbalancedStack 2) := by
  let t : Session (Document ListenerId) NodeId Nat Unit := onLimits.configured .standard
  let m : Machine (Document ListenerId) NodeId Nat Unit := t.toMachine.withSlots [some ⟨1⟩]
  have hrange : Machine.executionsRange (host id) oneText false ⟨0, 12⟩ m
      = [(m, .createText 0 0)] :=
    Machine.executionsFrom_of_last (Instr.read_encode (.createText 0 0) 0 []) rfl m
  have hlist : executions (host id) oneText t = [(m, .createText 0 0)] := by
    have hpush : Machine.onStack (Stack.push ((host id).rootSeed t.doc t.root)) t.toMachine
        = .ok () m := rfl
    rw [executions_of_push rfl hpush]
    show Machine.executionsAll (host id) oneText false [⟨0, 12⟩] m = _
    rw [Machine.executionsAll_singleton, hrange]
  have hnet : netOf (executions (host id) oneText t) = 1 := by
    rw [hlist]
    rfl
  obtain ⟨m', hm'⟩ : ∃ m', work (host id) oneText t t.toMachine = .ok 1 m' :=
    ⟨_, (congrFun (work_onLimits none) t.toMachine).trans rfl⟩
  obtain ⟨-, -, hunbalanced, -⟩ := balance_of_apply (host id) oneText onLimits .standard
  refine ⟨configured_of_history history_onLimits, hnet,
    (hunbalanced 2).mpr ⟨rfl, ⟨1, m', hm'⟩, rfl, ?_, ?_⟩⟩
  · exact hnet ▸ Int.one_pos
  · rw [hnet]
    rfl

end TreeEdit.Session
