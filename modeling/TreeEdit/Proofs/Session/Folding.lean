import TreeEdit.Document.Hosting
import TreeEdit.Proofs.Machine.Folding
import TreeEdit.Proofs.Session.Steps

/-!
# An application is a fold over what was decoded

An application attempts what can be read of its ranges, in the order in which they were queued and
all on one stack, and ends like the first attempt that fails, or with the fault that ended the
reading (`apply_folds`).
-/

namespace TreeEdit.Session

open Binary (Bytes)
open Machine (Accounts FailsAt Folds Reads attemptAll reading script storeAll)

variable {δ ν β τ : Type}

/-- What a run does, in terms of what was decoded. -/
def runDecoded (H : Host δ ν β) (mem : Bytes) : Act δ ν β τ Nat := do
  let s ← get
  onMachine (Machine.onStack (Stack.push (H.rootSeed s.doc s.root)))
  let executed ← onMachine (Machine.play H mem s.config.traced (script mem s.pending))
  settle s.config executed

theorem run_eq_runDecoded (H : Host δ ν β) (mem : Bytes) :
    (run H mem : Act δ ν β τ Nat) = runDecoded H mem := by
  rw [run_eq]
  simp only [Machine.runAll_eq]
  rfl

/-- Runs are folds over what was decoded. A range is read as the decoder reads it and run
accordingly; an application attempts what was read of its queue, one range after another; and the
attempts are all executed, or come to an end where one of them fails. The last text stored under an
id is the one that is found. -/
theorem apply_folds (H : Host δ ν β) (mem : Bytes) :
    (∀ traced span, Folds τ H mem traced span) ∧
    (∀ span, Reads mem span (reading mem span)) ∧
    (∀ s : Session δ ν β τ, s.lifecycle = .active → s.pending ≠ [] →
      apply H mem s =
        match runDecoded H mem s with
        | .ok executed s' => .ok () (s'.closed (.applied s.pending.length executed))
        | .error e s' => .error e (s'.closed (.interrupted s.pending.length e))) ∧
    (∀ traced ops (m : Machine δ ν β τ),
      Step.Ends (attemptAll H mem traced ops) m (fun _ m' => Accounts H mem traced ops ops m m')
        fun e m' => FailsAt H mem traced ops m e m') ∧
    ∀ t texts id, (storeAll t texts).get id =
      match texts.reverse.find? fun w => w.1 = id with
      | some w => .ok w.2
      | none => t.get id := by
  refine ⟨Machine.runRange_folds H mem, Machine.reads_reading mem, fun s ha hp => ?_,
    fun _ => Machine.attemptAll_ends, Machine.get_storeAll⟩
  have happly := apply_of_active (H := H) ha hp mem
  rw [run_eq_runDecoded] at happly
  refine happly.trans ?_
  cases runDecoded H mem s <;> rfl

/-! ## A queue with a fault in its second range -/

open Document (host)

/-- A memory with an instruction, and a word that is no opcode after it. -/
def faultyBytes : Bytes :=
  Instr.pushFirstChild.encode ++ (Binary.Word.bytes 99 ++ Instr.pop.encode)

/-- A session whose first node is a section, with two ranges of that memory queued. -/
def onFaulty : Session (Document ListenerId) NodeId Nat Unit :=
  Step.after (queue ⟨4, 8⟩)
    (Step.after (queue ⟨0, 4⟩) (start (Document.withSeed "main" "section") ⟨0⟩ .standard))

theorem reading_faultyBytes : reading faultyBytes ⟨0, 4⟩ = ([(0, .pushFirstChild)], none) := by
  show Instr.legible ⟨0, Instr.pushFirstChild.encode ++ []⟩ = _
  rw [Instr.legible_of_read (by decide) (Instr.read_encode .pushFirstChild 0 []),
    Instr.legible_of_end rfl]

theorem script_faultyBytes :
    script faultyBytes [⟨0, 4⟩, ⟨4, 8⟩] = ([(0, .pushFirstChild)], some (.unknownOpcode 99 4)) := by
  have hsecond : reading faultyBytes ⟨4, 8⟩ = ([], some (.unknownOpcode 99 4)) := by
    show Instr.legible ⟨4, Binary.Word.bytes 99 ++ Instr.pop.encode⟩ = _
    exact Instr.legible_of_fault (by decide) (by rfl)
  rw [script, reading_faultyBytes, script, hsecond]
  rfl

/-- The first range is run, and then the fault ends the application. -/
theorem apply_folds_onFaulty :
    onFaulty.lifecycle = .active ∧ onFaulty.pending ≠ [] ∧
      ∃ s', apply (host id) faultyBytes onFaulty = .error (.fault (.unknownOpcode 99 4)) s' := by
  have ha : onFaulty.lifecycle = .active := rfl
  have hp : onFaulty.pending ≠ [] := List.cons_ne_nil _ _
  refine ⟨ha, hp, ?_⟩
  let m₀ := onFaulty.toMachine.withSlots [some ⟨1⟩]
  obtain ⟨m₁, h₁⟩ : ∃ m₁,
      attemptAll (host id) faultyBytes false [(0, .pushFirstChild)] m₀ = .ok () m₁ := ⟨_, rfl⟩
  have hplay : Machine.play (host id) faultyBytes false (script faultyBytes [⟨0, 4⟩, ⟨4, 8⟩]) m₀
      = .error (.fault (.unknownOpcode 99 4)) m₁ := by
    rw [script_faultyBytes]
    exact Step.bind_ok h₁
  have hpush : onMachine (Machine.onStack (Stack.push (some ⟨1⟩))) onFaulty
      = .ok () { onFaulty with toMachine := m₀ } := rfl
  have hpart : onMachine
        (Machine.play (host id) faultyBytes false (script faultyBytes [⟨0, 4⟩, ⟨4, 8⟩]))
        { onFaulty with toMachine := m₀ }
      = .error (.fault (.unknownOpcode 99 4)) { onFaulty with toMachine := m₁ } :=
    Step.onPart_error hplay
  have hrun : runDecoded (host id) faultyBytes onFaulty
      = .error (.fault (.unknownOpcode 99 4)) { onFaulty with toMachine := m₁ } := by
    rw [runDecoded, Step.get_bind]
    exact (Step.bind_ok hpush).trans (Step.bind_error hpart)
  rw [(apply_folds (host id) faultyBytes).2.2.1 onFaulty ha hp, hrun]
  exact ⟨_, rfl⟩

end TreeEdit.Session
