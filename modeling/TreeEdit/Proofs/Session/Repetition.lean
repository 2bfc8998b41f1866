import TreeEdit.Proofs.Program.Blocks
import TreeEdit.Proofs.Session.Steps

/-!
# The same program again and again

A program may be applied a number of times, each time on its own (`applyEach`), or queued as often
and applied at once (`applyTogether`). Where every single run goes through and leaves behind what
the next one needs (`Steady`), both ways come to the same: as many runs, one after another, each on
what the one before it made of the document.
-/

namespace TreeEdit.Session

variable {δ ν β τ : Type}

/-! ## Several applications -/

/-- Queues a program a number of times. -/
def queueTimes (image : Image) : Nat → Act δ ν β τ Unit
  | 0 => return
  | k + 1 => do
    queue image.span
    queueTimes image k

/-- Queues a program a number of times and applies all of that at once. -/
def applyTogether (H : Host δ ν β) (image : Image) (k : Nat) : Act δ ν β τ Unit := do
  queueTimes image k
  apply H image.bytes

/-- Queues a program and applies it, a number of times. -/
def applyEach (H : Host δ ν β) (image : Image) : Nat → Act δ ν β τ Unit
  | 0 => return
  | k + 1 => do
    queue image.span
    apply H image.bytes
    applyEach H image k

theorem applyEach_one (H : Host δ ν β) (image : Image) :
    (applyEach H image 1 : Act δ ν β τ Unit) = (do
      queue image.span
      apply H image.bytes) := by
  rw [applyEach]
  exact congrArg (queue image.span >>= ·) (funext fun _ => bind_pure_unit)

/-! ## Several runs -/

/-- `R` leads from `d` to `d'` in `k` steps. -/
inductive Times (R : δ → δ → Prop) : Nat → δ → δ → Prop
  | zero (d : δ) : Times R 0 d d
  | succ {k : Nat} {d d₁ d' : δ} (first : R d d₁) (rest : Times R k d₁ d') : Times R (k + 1) d d'

/-- On a document with `P`, and a stack that holds only the slot `seed` and has no limit, the
program goes through. It leaves the stack as it was and `P` in force, and what it does to the
document is `R`. -/
def Steady (H : Host δ ν β) (τ : Type) (image : Image) (seed : ν) (P : δ → Prop)
    (R : δ → δ → Prop) : Prop :=
  ∀ (m : Machine δ ν β τ) (traced : Bool), m.stack = ⟨[some seed], none⟩ → P m.doc →
    ∃ executed m', Machine.runRange H image.bytes traced image.span m = .ok executed m' ∧
      m'.stack = m.stack ∧ P m'.doc ∧ R m.doc m'.doc

/-- The session is in use, its stack is empty and without limit, and the program is queued `k`
times. -/
structure Queued (image : Image) (k : Nat) (s : Session δ ν β τ) : Prop where
  active : s.lifecycle = .active
  pending : s.pending = List.replicate k image.span
  slots : s.stack.slots = []
  limit : s.stack.limit = none

variable {H : Host δ ν β} {image : Image} {seed : ν} {P : δ → Prop} {R : δ → δ → Prop} {k : Nat}
  {s : Session δ ν β τ}

theorem Steady.runAll {m : Machine δ ν β τ} (h : Steady H τ image seed P R) (traced : Bool)
    (hstack : m.stack = ⟨[some seed], none⟩) (hP : P m.doc) (k : Nat) :
    ∃ executed m', Machine.runAll H image.bytes traced (List.replicate k image.span) m
        = .ok executed m' ∧
      m'.stack = m.stack ∧ P m'.doc ∧ Times R k m.doc m'.doc := by
  induction k generalizing m with
  | zero => exact ⟨0, m, rfl, rfl, hP, .zero _⟩
  | succ k ih =>
    obtain ⟨first, m₁, h₁, hs₁, hP₁, hR₁⟩ := h m traced hstack hP
    obtain ⟨later, m₂, h₂, hs₂, hP₂, hR₂⟩ := ih (hs₁.trans hstack) hP₁
    refine ⟨first + later, m₂, ?_, hs₂.trans hs₁, hP₂, .succ hR₁ hR₂⟩
    rw [List.replicate_succ, Machine.runAll, Step.bind_ok h₁, Step.bind_ok h₂]
    rfl

theorem Queued.queue (h : Queued image k s) :
    Session.queue image.span s = .ok () (s.queued image.span) ∧
      Queued image (k + 1) (s.queued image.span) := by
  refine ⟨queue_of_active h.active _, { h with pending := ?_ }⟩
  rw [queued, h.pending, List.replicate_succ']

theorem Queued.queueTimes {j : Nat} (h : Queued image j s) (k : Nat) :
    ∃ s', Session.queueTimes image k s = .ok () s' ∧ Queued image (j + k) s' ∧ s'.doc = s.doc ∧
      s'.root = s.root := by
  induction k generalizing s j with
  | zero => exact ⟨s, rfl, h, rfl, rfl⟩
  | succ k ih =>
    obtain ⟨hqueue, hqueued⟩ := h.queue
    obtain ⟨s', hs', hr, hdoc, hroot⟩ := ih hqueued
    refine ⟨s', ?_, ?_, hdoc, hroot⟩
    · rw [Session.queueTimes, Step.bind_ok hqueue, hs']
    · rwa [Nat.add_right_comm, Nat.add_assoc] at hr

namespace Steady

variable (h : Steady H τ image seed P R) (hstart : ∀ d, P d → H.rootSeed d s.root = some seed)
  (hP : P s.doc)
include h hstart hP

/-- The queued runs are made, and the session is ready for more. -/
theorem apply (hs : Queued image k s) :
    ∃ s', Session.apply H image.bytes s = .ok () s' ∧ Queued image 0 s' ∧ s'.root = s.root ∧
      P s'.doc ∧ Times R k s.doc s'.doc := by
  cases k with
  | zero => exact ⟨s, apply_of_idle hs.active hs.pending _, hs, rfl, hP, .zero _⟩
  | succ k =>
    have hpushed : (s.toMachine.withSlots (some seed :: s.stack.slots)).stack
        = ⟨[some seed], none⟩ := by
      rw [← hs.limit, hs.slots]
      rfl
    obtain ⟨executed, m', hrun, hstack, hP', hR⟩ :=
      h.runAll (m := s.toMachine.withSlots (some seed :: s.stack.slots)) s.config.traced hpushed hP
        (k + 1)
    rw [← hs.pending] at hrun
    have hpush := Machine.push_of_no_limit (m := s.toMachine) hs.limit (H.rootSeed s.doc s.root)
    rw [hstart s.doc hP] at hpush
    -- the one slot that is left is the one that the run started with
    have hdepth : ¬(s.config.strictStack = true ∧ m'.stack.depth > 1) := by
      rw [hstack, hpushed]
      exact fun hd => Nat.lt_irrefl 1 hd.2
    have hpending : s.pending ≠ [] := by
      rw [hs.pending]
      exact List.cons_ne_nil _ _
    have happly := apply_of_active (H := H) hs.active hpending image.bytes
    rw [run_of_runAll (by rw [hstart s.doc hP]; exact hpush) hrun hdepth] at happly
    refine ⟨_, happly, ⟨hs.active, rfl, rfl, ?_⟩, rfl, hP', hR⟩
    show m'.stack.limit = none
    rw [hstack, hpushed]

theorem applyTogether (hs : Queued image 0 s) (k : Nat) :
    ∃ s', Session.applyTogether H image k s = .ok () s' ∧ Queued image 0 s' ∧ s'.root = s.root ∧
      P s'.doc ∧ Times R k s.doc s'.doc := by
  obtain ⟨s₁, hqueue, hqueued, hdoc, hroot⟩ := hs.queueTimes k
  rw [Nat.zero_add] at hqueued
  obtain ⟨s', happly, hs', hroot', hP', hR⟩ :=
    h.apply (fun d hd => hroot ▸ hstart d hd) (hdoc ▸ hP) hqueued
  refine ⟨s', ?_, hs', hroot'.trans hroot, hP', hdoc ▸ hR⟩
  rw [Session.applyTogether, Step.bind_ok hqueue, happly]

theorem once (hs : Queued image 0 s) :
    ∃ s', (do
        queue image.span
        Session.apply H image.bytes : Act δ ν β τ Unit) s = .ok () s' ∧
      Queued image 0 s' ∧ s'.root = s.root ∧ P s'.doc ∧ R s.doc s'.doc := by
  obtain ⟨hqueue, hqueued⟩ := hs.queue
  obtain ⟨s', happly, hs', hroot, hP', hR⟩ := h.apply (s := s.queued image.span) hstart hP hqueued
  cases hR with
  | succ first rest =>
    cases rest
    refine ⟨s', ?_, hs', hroot, hP', first⟩
    rw [Step.bind_ok hqueue, happly]

theorem applyEach (hs : Queued image 0 s) (k : Nat) :
    ∃ s', Session.applyEach H image k s = .ok () s' ∧ Queued image 0 s' ∧ s'.root = s.root ∧
      P s'.doc ∧ Times R k s.doc s'.doc := by
  induction k generalizing s with
  | zero => exact ⟨s, rfl, hs, rfl, hP, .zero _⟩
  | succ k ih =>
    obtain ⟨s₁, h₁, hs₁, hroot₁, hP₁, hR₁⟩ := h.once hstart hP hs
    obtain ⟨s₂, h₂, hs₂, hroot₂, hP₂, hR₂⟩ := ih (fun d hd => hroot₁ ▸ hstart d hd) hP₁ hs₁
    refine ⟨s₂, ?_, hs₂, hroot₂.trans hroot₁, hP₂, .succ hR₁ hR₂⟩
    rw [Session.applyEach, ← bind_assoc, Step.bind_ok h₁, h₂]

end Steady

end TreeEdit.Session
