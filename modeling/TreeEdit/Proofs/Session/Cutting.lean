import TreeEdit.Proofs.Machine.Cutting
import TreeEdit.Proofs.Session.Configurations
import TreeEdit.Proofs.Session.Folding

/-!
# Queues with a range that is cut in two

How instructions are divided into ranges is no part of what an application does. To queue a range,
or the two parts of it that a cut behind an instruction leaves, makes no difference to what comes of
the queue (`apply_halves`), whatever the second part holds and wherever it is broken off. Only the
number of ranges that the journal speaks of at the end is another one.
-/

namespace TreeEdit

/-- The notice without the number of ranges that were queued. -/
def Notice.uncounted : Notice → Notice
  | .applied _ executed => .applied 0 executed
  | .interrupted _ e => .interrupted 0 e
  | notice => notice

namespace Session

open Binary (Bytes)
open Instr (decodeRange)
open Step (Agree)

variable {δ ν β τ : Type} {H : Host δ ν β} {mem : Bytes} {s s' : Session δ ν β τ}

/-- The session with nothing in its journal about the number of ranges that were queued. -/
def uncounted (s : Session δ ν β τ) : Session δ ν β τ :=
  { s with journal := s.journal.map Notice.uncounted }

/-- The sessions are the same, the numbers of queued ranges in their journals apart. -/
abbrev SameButCounts (s s' : Session δ ν β τ) : Prop :=
  s.uncounted = s'.uncounted

/-! ## Queues -/

/-- Queues some ranges, one after another. -/
def queueAll (spans : List Span) : Act δ ν β τ Unit :=
  spans.forM queue

theorem queueAll_cons (span : Span) (spans : List Span) :
    (queueAll (span :: spans) : Act δ ν β τ Unit) = (do queue span; queueAll spans) := rfl

/-- The session with some more ranges behind those that are queued. -/
def queuedAll (s : Session δ ν β τ) (spans : List Span) : Session δ ν β τ :=
  { s with pending := s.pending ++ spans }

theorem queueAll_of_active (h : s.lifecycle = .active) (spans : List Span) :
    queueAll spans s = .ok () (s.queuedAll spans) := by
  induction spans generalizing s with
  | nil =>
    rw [queuedAll, List.append_nil]
    rfl
  | cons span spans ih =>
    have hfirst : queue span s = .ok () (s.queuedAll [span]) := by
      rw [queue, Step.bind_ok (ensureActive_of_active h)]
      rfl
    have hrest : (s.queuedAll [span]).queuedAll spans = s.queuedAll (span :: spans) := by
      rw [queuedAll, queuedAll, queuedAll, List.append_assoc]
      rfl
    rw [queueAll_cons, Step.bind_ok hfirst, ← hrest]
    exact ih h

theorem queueAll_of_unmounted (h : s.lifecycle = .unmounted) (span : Span) (spans : List Span) :
    queueAll (span :: spans) s = .error .unmounted s := by
  have hfirst : queue span s = .error .unmounted s := by
    rw [queue, Step.bind_error (ensureActive_of_unmounted h)]
  rw [queueAll_cons, Step.bind_error hfirst]

/-! ## Queues that do the same -/

theorem uncounted_closed {notice notice' : Notice} (hs : s.toMachine = s'.toMachine)
    (hroot : s.root = s'.root) (hconfig : s.config = s'.config)
    (hlife : s.lifecycle = s'.lifecycle) (hn : notice.uncounted = notice'.uncounted) :
    SameButCounts (s.closed notice) (s'.closed notice') := by
  unfold SameButCounts uncounted closed
  dsimp only
  rw [Array.map_push, Array.map_push, hn, hs, hroot, hconfig, hlife]

/-- What is done with a queue is all that depends on it, the number of its ranges apart. -/
theorem apply_agree_of_work {queue queue' : List Span} (ha : s.lifecycle = .active)
    (hq : queue ≠ []) (hq' : queue' ≠ [])
    (hwork : work H mem { s with pending := queue } = work H mem { s with pending := queue' }) :
    Agree SameButCounts (apply H mem) (apply H mem) { s with pending := queue }
      { s with pending := queue' } := by
  have happly := apply_of_active (H := H) (s := { s with pending := queue }) ha hq mem
  have happly' := apply_of_active (H := H) (s := { s with pending := queue' }) ha hq' mem
  cases hw : work H mem { s with pending := queue } s.toMachine with
  | error e m =>
    rw [run_of_work_error hw] at happly
    rw [run_of_work_error (hwork ▸ hw)] at happly'
    exact Step.agree_of_error happly happly' (uncounted_closed rfl rfl rfl rfl rfl)
  | ok executed m =>
    rw [run_of_work_ok hw, settle_eq] at happly
    rw [run_of_work_ok (hwork ▸ hw), settle_eq] at happly'
    dsimp only at happly happly'
    cases hv : s.config.verdict m.stack.depth with
    | ok =>
      rw [hv] at happly happly'
      exact Step.agree_of_ok happly happly' (uncounted_closed rfl rfl rfl rfl rfl)
    | error e =>
      rw [hv] at happly happly'
      exact Step.agree_of_error happly happly' (uncounted_closed rfl rfl rfl rfl rfl)

/-! ## Ranges and their halves -/

variable {whole first second : Span} {ops : List (Nat × Instr)} {bounds : Nat × Nat}

theorem apply_queued_halves (h : whole.Halves first second)
    (hwhole : Binary.checkRange mem.length whole.start whole.len = .ok bounds)
    (hfirst : decodeRange mem first.start first.len = .ok ops) (later : List Span)
    (ha : s.lifecycle = .active) :
    Agree SameButCounts (apply H mem) (apply H mem) (s.queuedAll (first :: second :: later))
      (s.queuedAll (whole :: later)) := by
  refine apply_agree_of_work ha (List.append_ne_nil_of_right_ne_nil _ (List.cons_ne_nil _ _))
    (List.append_ne_nil_of_right_ne_nil _ (List.cons_ne_nil _ _)) ?_
  rw [work, work, Machine.runAll_halves h hwhole hfirst s.pending later]

/-- Cutting a range behind an instruction changes nothing. Whatever is queued before and after it,
and on any host, both queues have the same outcome: the same error at the same place, if there is
one, the same calls, and the same session in the end. Only the numbers of ranges in the journal
differ; the number of instructions executed is the same. -/
theorem apply_halves (H : Host δ ν β) (s : Session δ ν β τ) (h : whole.Halves first second)
    (hwhole : Binary.checkRange mem.length whole.start whole.len = .ok bounds)
    (hfirst : decodeRange mem first.start first.len = .ok ops) (later : List Span) :
    Agree SameButCounts
        (do queueAll (first :: second :: later); apply H mem)
        (do queueAll (whole :: later); apply H mem) s s ∧
      (s.queuedAll (first :: second :: later)).calls H mem
        = (s.queuedAll (whole :: later)).calls H mem := by
  cases ha : s.lifecycle with
  | unmounted =>
    constructor
    · exact Step.agree_of_error (Step.bind_error (queueAll_of_unmounted ha _ _))
        (Step.bind_error (queueAll_of_unmounted ha _ _)) rfl
    · have hover (spans : List Span) : (s.queuedAll spans).calls H mem = [] := by
        have h : (s.queuedAll spans).watched.lifecycle = .unmounted := ha
        rw [calls, Step.after, apply, Step.bind_error (ensureActive_of_unmounted h)]
        rfl
      rw [hover, hover]
  | active =>
    constructor
    · unfold Agree
      rw [Step.bind_ok (queueAll_of_active ha _), Step.bind_ok (queueAll_of_active ha _)]
      exact apply_queued_halves h hwhole hfirst later ha
    · -- the calls are part of the document of the watched session
      have hsame := (apply_queued_halves (H := H.watched fun _ => none) (s := s.watched)
        h hwhole hfirst later ha).after
      exact congrArg (fun u => u.doc.calls.toList) hsame

/-- The second part of the range has the fault in it. -/
theorem apply_halves_faultyBytes :
    (⟨0, 12⟩ : Span).Halves ⟨0, 4⟩ ⟨4, 8⟩ ∧
      Binary.checkRange faultyBytes.length 0 12 = .ok (0, 12) ∧
      decodeRange faultyBytes 0 4 = .ok [(0, .pushFirstChild)] ∧
      Agree SameButCounts
        (do queueAll [⟨0, 4⟩, ⟨4, 8⟩]; apply (Document.host id) faultyBytes)
        (do queueAll [⟨0, 12⟩]; apply (Document.host id) faultyBytes)
        (start (Document.withSeed "main" "section") ⟨0⟩ .standard : Session _ _ _ Unit)
        (start (Document.withSeed "main" "section") ⟨0⟩ .standard) := by
  have hhalves : (⟨0, 12⟩ : Span).Halves ⟨0, 4⟩ ⟨4, 8⟩ := ⟨rfl, rfl, rfl⟩
  have hwhole : Binary.checkRange faultyBytes.length 0 12 = .ok (0, 12) := rfl
  have hfirst : decodeRange faultyBytes 0 4 = .ok [(0, .pushFirstChild)] :=
    (Machine.reads_reading faultyBytes ⟨0, 4⟩).decoded.trans
      (Instr.decoded_eq_ok_iff.mpr reading_faultyBytes)
  exact ⟨hhalves, hwhole, hfirst, (apply_halves (Document.host id) _ hhalves hwhole hfirst []).1⟩

end Session

end TreeEdit
