import TreeEdit.Document.Hosting
import TreeEdit.Proofs.Machine.Locality
import TreeEdit.Proofs.Session.Steps

/-!
# The bytes that an application reads

An application whose ranges lie in its memory, and which does not fail for want of bytes, depends on
nothing but the bytes of the ranges and of the texts that they point at (`apply_local`). So the
memory may grow, and all its other bytes may be anything.
-/

namespace TreeEdit.Session

open Binary (Bytes)
open Machine (InBounds MayRead)

variable {δ ν β τ : Type} {H : Host δ ν β} {mem mem' : Bytes} {s : Session δ ν β τ}

/-- What the machine does is all of a run that depends on the memory. -/
theorem run_congr (h : work H mem' s s.toMachine = work H mem s s.toMachine) :
    run H mem' s = run H mem s := by
  cases hw : work H mem s s.toMachine with
  | ok executed m => rw [run_of_work_ok hw, run_of_work_ok (h.trans hw)]
  | error e m => rw [run_of_work_error hw, run_of_work_error (h.trans hw)]

/-- On a longer memory in which the readable bytes are the same, an application does the same, or
the shorter memory is too short. -/
theorem apply_congr_or_overrun (hle : mem.length ≤ mem'.length)
    (hinside : ∀ span ∈ s.pending, span.start.toNat + span.len.toNat ≤ mem.length)
    (hsame : ∀ i < mem.length, MayRead mem s.pending i → mem'[i]? = mem[i]?) :
    apply H mem' s = apply H mem s ∨ ∃ e t, apply H mem s = .error e t ∧ e.Overrun := by
  cases ha : s.lifecycle with
  | unmounted =>
    rw [apply, apply, Step.bind_error (ensureActive_of_unmounted ha),
      Step.bind_error (ensureActive_of_unmounted ha)]
    exact .inl rfl
  | active =>
    by_cases hp : s.pending = []
    · rw [apply_of_idle ha hp, apply_of_idle ha hp]
      exact .inl rfl
    have hwork : InBounds (work H mem' s) (work H mem s) :=
      (Machine.inBounds_refl _).bind fun _ => Machine.runAll_inBounds hle hinside hsame
    rcases hwork.along (rfl : s.toMachine = s.toMachine) with hagree | ⟨e, m, hw, he⟩
    · left
      have hrun : run H mem' s = run H mem s := by
        refine run_congr ?_
        rcases Step.agree_iff.mp hagree with ⟨_, _, _, hw', hw, rfl⟩ | ⟨_, _, _, hw', hw, rfl⟩
        · exact hw'.trans hw.symm
        · exact hw'.trans hw.symm
      rw [apply_of_active ha hp, apply_of_active ha hp, hrun]
    · right
      have happly := apply_of_active (H := H) ha hp mem
      rw [run_of_work_error hw] at happly
      exact ⟨e, _, happly, he⟩

/-- An application depends only on the bytes that it may read. If its ranges lie in the memory and
it does not fail because a text reaches beyond it, then it has the same outcome and leaves the same
session on any memory that is no shorter and holds the same bytes where they may be read. In
particular, the memory can grow, and a byte that may not be read can be rewritten. -/
theorem apply_local (H : Host δ ν β) (mem : Bytes) (s : Session δ ν β τ)
    (hinside : ∀ span ∈ s.pending, span.start.toNat + span.len.toNat ≤ mem.length)
    (hfits : ∀ e t, apply H mem s = .error e t → ¬e.Overrun) :
    (∀ mem' : Bytes, mem.length ≤ mem'.length →
      (∀ i < mem.length, MayRead mem s.pending i → mem'[i]? = mem[i]?) →
      apply H mem' s = apply H mem s) ∧
    (∀ more, apply H (mem ++ more) s = apply H mem s) ∧
    ∀ i b, ¬MayRead mem s.pending i → apply H (mem.set i b) s = apply H mem s := by
  have hlocal (mem' : Bytes) (hle : mem.length ≤ mem'.length)
      (hsame : ∀ i < mem.length, MayRead mem s.pending i → mem'[i]? = mem[i]?) :
      apply H mem' s = apply H mem s :=
    (apply_congr_or_overrun hle hinside hsame).resolve_right fun ⟨e, t, happly, he⟩ =>
      hfits e t happly he
  refine ⟨hlocal, fun more => ?_, fun i b hi => ?_⟩
  · refine hlocal _ ?_ fun i hi _ => List.getElem?_append_left hi
    rw [List.length_append]
    exact Nat.le_add_right _ _
  · refine hlocal _ (List.length_set ▸ Nat.le_refl _) fun j _ hj => ?_
    have hij : i ≠ j := by
      rintro rfl
      exact hi hj
    exact List.getElem?_set_ne hij

/-! ## A text that does not fill its words -/

open Document (host)

/-- Instructions that put a text of two bytes at the end of a node. -/
def appendText : List Instr :=
  [.createText 0 2, .appendChild]

/-- The text, two bytes that are not in use, and the instructions. -/
def paddedText : Bytes :=
  [104, 105, 0, 0] ++ appendText.flatMap Instr.encode

/-- A session with the instructions queued. -/
def onPaddedText : Session (Document ListenerId) NodeId Nat Unit :=
  Step.after (queue ⟨4, 16⟩) (start (Document.withSeed "main" "section") ⟨0⟩ .standard)

theorem reading_paddedText :
    Machine.reading paddedText ⟨4, 16⟩ = ([(4, .createText 0 2), (16, .appendChild)], none) := by
  show Instr.legible ⟨4, appendText.flatMap Instr.encode ++ []⟩ = _
  rw [Instr.legible_encodings, Instr.legible_of_end rfl]
  rfl

theorem apply_paddedText : ∃ t, apply (host id) paddedText onPaddedText = .ok () t := by
  obtain ⟨m, hall, hdepth⟩ : ∃ m, Machine.runAll (host id) paddedText false [⟨4, 16⟩]
      (onPaddedText.toMachine.withSlots [some ⟨1⟩]) = .ok 2 m ∧ m.stack.depth = 1 := by
    rw [Machine.runAll_eq, Machine.script, reading_paddedText]
    exact ⟨_, rfl, rfl⟩
  have hrun := run_of_runAll (H := host id) (s := onPaddedText) rfl hall
    fun h => absurd h.2 (by omega)
  rw [apply_of_active rfl (List.cons_ne_nil _ _), hrun]
  exact ⟨_, rfl⟩

/-- The bytes behind the text may be anything. -/
theorem apply_local_paddedText :
    (∀ span ∈ onPaddedText.pending, span.start.toNat + span.len.toNat ≤ paddedText.length) ∧
      (∀ e t, apply (host id) paddedText onPaddedText = .error e t → ¬e.Overrun) ∧
      ∀ b b', apply (host id) ([104, 105, b, b'] ++ appendText.flatMap Instr.encode) onPaddedText
        = apply (host id) paddedText onPaddedText := by
  have hinside : ∀ span ∈ onPaddedText.pending,
      span.start.toNat + span.len.toNat ≤ paddedText.length := by
    intro span hspan
    rw [List.mem_singleton.mp hspan]
    decide
  have hfits : ∀ e t, apply (host id) paddedText onPaddedText = .error e t → ¬e.Overrun := by
    intro e t h
    obtain ⟨t', happly⟩ := apply_paddedText
    cases happly.symm.trans h
  refine ⟨hinside, hfits, fun b b' => ?_⟩
  refine (apply_local (host id) paddedText onPaddedText hinside hfits).1 _ (Nat.le_refl _)
    fun i _ hread => ?_
  -- neither the range nor the only text in it has the bytes that are not in use
  have hi : i < 2 ∨ 4 ≤ i := by
    cases hread with
    | range hspan hcovers =>
      rw [List.mem_singleton.mp hspan] at hcovers
      exact .inr hcovers.1
    | @text span op ptr len hspan hop htext hcovers =>
      rw [List.mem_singleton.mp hspan, reading_paddedText] at hop
      rcases List.mem_cons.mp hop with rfl | hop
      · cases List.mem_singleton.mp htext
        exact .inl hcovers.2
      · rw [List.mem_singleton.mp hop] at htext
        cases htext
  match i, hi with
  | 0, _ | 1, _ => rfl
  | 2, h | 3, h => omega
  | i + 4, _ => rfl

end TreeEdit.Session
