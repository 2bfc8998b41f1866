import TreeEdit.Document.Hosting
import TreeEdit.Host.Watched
import TreeEdit.Proofs.Program.Direct
import TreeEdit.Proofs.Session.Steps

/-!
# Applying what was emitted

A builder is asked for texts and statements, some of it in vain, and what it has emitted is queued
and applied. That has the same outcome as doing what the requests that succeeded say, with their own
texts (`applies_of_emitAll`): the same error if there is one, the same calls in the same order, and
the same listeners. Whatever the string table of the session held before makes no difference.
-/

namespace TreeEdit

open Binary (Bytes Cursor)
open Step (Agree)

variable {δ ν β τ : Type} {H : Host δ ν β} {mem : Bytes}

/-! ## The range of a finished program -/

namespace Builder

variable {b : Builder}

theorem length_finish (b : Builder) :
    b.finish.bytes.length = b.data.toList.length + b.code.toList.length :=
  List.length_append

theorem start_finish (h : b.finish.bytes.length < 2 ^ 32) :
    b.finish.start.toNat = b.data.toList.length := by
  rw [length_finish] at h
  show b.data.length.toUInt32.toNat = _
  rw [Binary.Zone.length_eq, Nat.toUInt32_eq, UInt32.toNat_ofNat']
  omega

theorem len_finish (h : b.finish.bytes.length < 2 ^ 32) :
    b.finish.len.toNat = b.code.toList.length := by
  rw [length_finish] at h
  show b.code.length.toUInt32.toNat = _
  rw [Binary.Zone.length_eq, Nat.toUInt32_eq, UInt32.toNat_ofNat']
  omega

/-- The range of a finished program is accepted. -/
theorem checkRange_finish (h : b.finish.bytes.length < 2 ^ 32) :
    Binary.checkRange b.finish.bytes.length b.finish.start b.finish.len
      = .ok (b.data.toList.length, b.data.toList.length + b.code.toList.length) := by
  rw [Binary.checkRange_eq_ok_iff, start_finish h, len_finish h]
  exact ⟨b.data.aligned, b.code.aligned, Nat.le_of_eq b.length_finish.symm, rfl⟩

/-- The instructions of a finished program are found behind its texts. -/
theorem ofRange_finish (h : b.finish.bytes.length < 2 ^ 32) :
    Cursor.ofRange b.finish.bytes b.finish.start b.finish.len
      = .ok ⟨b.data.toList.length, b.code.toList⟩ := by
  rw [Cursor.ofRange, checkRange_finish h]
  show Except.ok (Cursor.mk _ ((b.finish.bytes.drop b.data.toList.length).take
    (b.data.toList.length + b.code.toList.length - b.data.toList.length))) = _
  rw [Nat.add_sub_cancel_left]
  show Except.ok (Cursor.mk _ (((b.data.toList ++ b.code.toList).drop b.data.toList.length).take
    b.code.toList.length)) = _
  rw [List.drop_left, List.take_length]

end Builder

/-! ## Ranges before it -/

namespace Machine

/-- What a range stands for is done after the ranges before it were run. -/
theorem runAll_agree {is : List Instr} {sts : List Statement} {span : Span} {offset : Nat}
    (hspan : Cursor.ofRange mem span.start span.len = .ok ⟨offset, is.flatMap Instr.encode⟩)
    (hd : ∀ t, ∃ t', Denotes mem t is sts t') (traced : Bool) (spans : List Span)
    (m : Machine δ ν β τ) :
    Agree Same
      (do let _ ← runAll H mem traced (spans ++ [span]))
      (do
        let _ ← runAll H mem traced spans
        Statement.performAll H sts) m m := by
  induction spans generalizing m with
  | nil =>
    obtain ⟨t', hd⟩ := hd m.strings
    have hrange : (runRange H mem traced span : Act δ ν β τ Nat)
        = runFrom H mem traced ⟨offset, is.flatMap Instr.encode⟩ 0 := by
      rw [runRange, hspan]
      rfl
    simp only [List.nil_append, runAll, hrange, bind_assoc, pure_bind]
    exact runFrom_agree hd (.refl m) traced offset 0
  | cons first spans ih =>
    simp only [List.cons_append, runAll, bind_assoc, pure_bind]
    refine Step.agree_bind_mono (Step.agree_refl _ rfl) (fun m₁ m₂ h => ?_) fun _ m₁ m₂ h => ?_
    · exact h ▸ Same.refl m₁
    · exact h ▸ ih m₁

end Machine

/-! ## Sessions -/

namespace Session

/-- Runs what is queued, and then does what statements say. -/
def runThen (H : Host δ ν β) (mem : Bytes) (sts : List Statement) : Act δ ν β τ Unit := do
  let s ← get
  onMachine (Machine.onStack (Stack.push (H.rootSeed s.doc s.root)))
  onMachine do
    let _ ← Machine.runAll H mem s.config.traced s.pending
    Statement.performAll H sts
  let depth := (← get).stack.depth
  if s.config.strictStack ∧ depth > 1 then
    throw (.unbalancedStack depth)

/-- Applies statements after what is queued, as `queue` and `apply` do with their code. Nothing is
noted in the journal. -/
def enact (H : Host δ ν β) (mem : Bytes) (sts : List Statement) : Act δ ν β τ Unit := do
  ensureActive
  let outcome ← Step.outcome (runThen H mem sts)
  modify fun s => { s with pending := [], stack := s.stack.clear }
  Step.ofExcept outcome

/-- The sessions differ in their journals and string tables at most. -/
structure Alike (s s' : Session δ ν β τ) : Prop where
  scene : s.toScene.Alike s'.toScene
  stack : s.stack = s'.stack
  root : s.root = s'.root
  pending : s.pending = s'.pending
  config : s.config = s'.config
  lifecycle : s.lifecycle = s'.lifecycle

theorem Alike.refl (s : Session δ ν β τ) : Alike s s :=
  ⟨⟨rfl, rfl⟩, rfl, rfl, rfl, rfl, rfl⟩

variable {s s' : Session δ ν β τ}

/-- The sessions came from `s` and `s'` by steps of their machines, which are related. -/
def Beside (R : Machine δ ν β τ → Machine δ ν β τ → Prop) (s s' u u' : Session δ ν β τ) : Prop :=
  ∃ m m', R m m' ∧ u = { s with toMachine := m } ∧ u' = { s' with toMachine := m' }

theorem onMachine_agree {α : Type} {x y : Machine.Act δ ν β τ α}
    {R R' : Machine δ ν β τ → Machine δ ν β τ → Prop} {u u' : Session δ ν β τ}
    (hu : Beside R s s' u u') (h : ∀ m m', R m m' → Agree R' x y m m') :
    Agree (Beside R' s s') (onMachine x) (onMachine y) u u' := by
  obtain ⟨m, m', hm, rfl, rfl⟩ := hu
  exact Step.agree_onPart (h m m' hm) fun t t' ht => ⟨t, t', ht, rfl, rfl⟩

/-- The session with another range behind those that are queued. -/
def queued (s : Session δ ν β τ) (span : Span) : Session δ ν β τ :=
  { s with pending := s.pending ++ [span] }

/-- A run whose last range stands for statements does what the statements say. -/
theorem run_agree {is : List Instr} {sts : List Statement} {span : Span} {offset : Nat}
    (hspan : Cursor.ofRange mem span.start span.len = .ok ⟨offset, is.flatMap Instr.encode⟩)
    (hd : ∀ t, ∃ t', Denotes mem t is sts t') (s : Session δ ν β τ) :
    Agree (Beside Machine.Same (s.queued span) s) (do let _ ← run H mem) (runThen H mem sts)
      (s.queued span) s := by
  -- until the last range is come to, both machines are the same one
  have hstart : Beside Eq (s.queued span) s (s.queued span) s := ⟨_, _, rfl, rfl, rfl⟩
  rw [run, runThen, bind_assoc]
  refine Step.agree_get ?_
  rw [bind_assoc]
  refine Step.agree_bind_mono (onMachine_agree hstart fun _ _ h => Step.agree_refl _ h)
    (fun u u' h => ?_) fun _ u u' h => ?_
  · obtain ⟨m, m', rfl, hu⟩ := h
    exact ⟨m, m, .refl m, hu⟩
  rw [bind_assoc]
  refine Step.agree_bind_discard ?_ fun _ u u' h => ?_
  · rw [onMachine, ← Step.onPart_discard]
    refine onMachine_agree h fun m m' hm => ?_
    rw [← show m = m' from hm]
    exact Machine.runAll_agree hspan hd s.config.traced s.pending m
  · obtain ⟨m, m', hm, rfl, rfl⟩ := h
    have hdepth : m.stack = m'.stack := hm.elim fun _ h => h.stack
    rw [bind_assoc]
    refine Step.agree_get ?_
    dsimp only
    rw [← hdepth]
    by_cases hstrict : s.config.strictStack = true ∧ m.stack.depth > 1
    · have hstrict' : (s.queued span).config.strictStack = true ∧ m.stack.depth > 1 := hstrict
      rw [if_pos hstrict, if_pos hstrict']
      exact Step.agree_throw _ ⟨m, m', hm, rfl, rfl⟩
    · have hstrict' : ¬((s.queued span).config.strictStack = true ∧ m.stack.depth > 1) := hstrict
      rw [if_neg hstrict, if_neg hstrict']
      exact Step.agree_pure _ ⟨m, m', hm, rfl, rfl⟩

theorem queue_of_active (h : s.lifecycle = .active) (span : Span) :
    queue span s = .ok () (s.queued span) := by
  rw [queue, Step.bind_ok (ensureActive_of_active h)]
  rfl

theorem queue_of_unmounted (h : s.lifecycle = .unmounted) (span : Span) :
    queue span s = .error .unmounted s := by
  rw [queue, Step.bind_error (ensureActive_of_unmounted h)]

/-- The session without the queue and the slots of a run. -/
def cleared (s : Session δ ν β τ) : Session δ ν β τ :=
  { s with pending := [], stack := s.stack.clear }

theorem enact_of_active (h : s.lifecycle = .active) (sts : List Statement) :
    enact H mem sts s =
      match runThen H mem sts s with
      | .ok _ s' => .ok () s'.cleared
      | .error e s' => .error e s'.cleared := by
  rw [enact, Step.bind_ok (ensureActive_of_active h)]
  cases hrun : runThen H mem sts s with
  | ok a s' =>
    rw [Step.bind_ok (Step.outcome_ok hrun)]
    rfl
  | error e s' =>
    rw [Step.bind_ok (Step.outcome_error hrun)]
    rfl

theorem enact_of_unmounted (h : s.lifecycle = .unmounted) (sts : List Statement) :
    enact H mem sts s = .error .unmounted s := by
  rw [enact, Step.bind_error (ensureActive_of_unmounted h)]

theorem alike_of_beside {span : Span} {u u' : Session δ ν β τ}
    (h : Beside Machine.Same (s.queued span) s u u') (notice : Notice) :
    Alike (u.closed notice) u'.cleared := by
  obtain ⟨m, m', ⟨t, h⟩, rfl, rfl⟩ := h
  exact ⟨⟨h.scene.doc, h.scene.listeners⟩, congrArg Stack.clear h.stack, rfl, rfl, rfl, rfl⟩

/-- Queueing and applying a range that stands for statements ends as the statements end. -/
theorem apply_agree {is : List Instr} {sts : List Statement} {span : Span} {offset : Nat}
    (hspan : Cursor.ofRange mem span.start span.len = .ok ⟨offset, is.flatMap Instr.encode⟩)
    (hd : ∀ t, ∃ t', Denotes mem t is sts t') (s : Session δ ν β τ) :
    Agree Alike (do queue span; apply H mem) (enact H mem sts) s s := by
  cases hl : s.lifecycle with
  | unmounted =>
    unfold Agree
    rw [Step.bind_error (queue_of_unmounted hl span), enact_of_unmounted hl]
    exact ⟨rfl, .refl s⟩
  | active =>
    have hactive : (s.queued span).lifecycle = .active := hl
    have hpending : (s.queued span).pending ≠ [] := List.append_ne_nil_of_right_ne_nil _ nofun
    unfold Agree
    rw [Step.bind_ok (queue_of_active hl span), apply_of_active hactive hpending,
      enact_of_active hl]
    rcases Step.agree_discard_iff.mp (run_agree (H := H) hspan hd s) with
      ⟨executed, u, u', hrun, hthen, hu⟩ | ⟨e, u, u', hrun, hthen, hu⟩
    · rw [hrun, hthen]
      exact ⟨rfl, alike_of_beside hu _⟩
    · rw [hrun, hthen]
      exact ⟨rfl, alike_of_beside hu _⟩

end Session

/-! ## Emitted programs -/

open Builder (startingAt)
open Request (emitAll spoken)

/-- The code that is emitted names the texts that were meant, whatever table it is read with. To
apply it is to do what the successful requests say. -/
theorem applies_of_emitAll (H : Host δ ν β) (refuse : Nat → Option HostError) (first : UInt32)
    {rs made : List Request} {b : Builder} (hrs : ∀ r ∈ rs, r.Textual)
    (hb : emitAll rs (startingAt first) = (made, b)) (hlen : b.finish.bytes.length < 2 ^ 32) :
    (∃ is, b.code.toList = is.flatMap Instr.encode ∧
      ∀ t, ∃ t', Denotes b.finish.bytes t is (made.flatMap spoken) t') ∧
    ∀ s : Session (Watched δ ν β) ν β τ,
      Agree Session.Alike
        (do
          Session.queue ⟨b.finish.start, b.finish.len⟩
          Session.apply (H.watched refuse) b.finish.bytes)
        (Session.enact (H.watched refuse) b.finish.bytes (made.flatMap spoken)) s s := by
  have hsay := Request.says_emitAll (Builder.startingAt_orderly first) hrs
  rw [hb] at hsay
  obtain ⟨is, hcode, his⟩ := hsay.code
  have hcode : b.code.toList = is.flatMap Instr.encode := hcode
  have hd (t : StringTable) : ∃ t', Denotes b.finish.bytes t is (made.flatMap spoken) t' := by
    obtain ⟨t', hd, -⟩ := his b.finish.bytes t (List.prefix_append _ _) hlen
      (Builder.startingAt_agrees first t)
    exact ⟨t', hd⟩
  have hrange := Builder.ofRange_finish hlen
  rw [hcode] at hrange
  exact ⟨⟨is, hcode, hd⟩, fun s => Session.apply_agree hrange hd s⟩

/-- The id of a tag goes to another text, and then no id is left for an attribute. -/
def takenId : List Request :=
  [.statement (.createElement "p"), .statement .appendChild,
    .statement (.addString "span" 0xFFFFFFFE), .statement (.createElement "p"),
    .statement .appendChild, .statement (.setAttribute "class" "box")]

/-- What is emitted for that. -/
def takenIdCode : Builder :=
  (emitAll takenId (startingAt 0xFFFFFFFE)).2

/-- Two paragraphs are made, and neither is a `span`. The attribute is not spoken of. -/
theorem takenId_applies :
    (∀ r ∈ takenId, r.Textual) ∧
      emitAll takenId (startingAt 0xFFFFFFFE) = (takenId.take 5, takenIdCode) ∧
      takenIdCode.finish.bytes.length < 2 ^ 32 ∧
      ∀ s : Session (Watched (Document ListenerId) NodeId Nat) NodeId Nat Unit,
        Agree Session.Alike
          (do
            Session.queue ⟨takenIdCode.finish.start, takenIdCode.finish.len⟩
            Session.apply ((Document.host id).watched fun _ => none) takenIdCode.finish.bytes)
          (Session.enact ((Document.host id).watched fun _ => none) takenIdCode.finish.bytes
            [.createElement "p", .appendChild, .createElement "p", .appendChild]) s s := by
  have htextual : ∀ r ∈ takenId, r.Textual := by
    intro r hr w hw
    subst hw
    simp [takenId] at hr
  have hmade : emitAll takenId (startingAt 0xFFFFFFFE) = (takenId.take 5, takenIdCode) := by
    rfl
  have hlen : takenIdCode.finish.bytes.length < 2 ^ 32 := by
    decide +kernel
  have hspoken : (takenId.take 5).flatMap spoken
      = [.createElement "p", .appendChild, .createElement "p", .appendChild] := by
    rfl
  refine ⟨htextual, hmade, hlen, fun s => ?_⟩
  rw [← hspoken]
  exact (applies_of_emitAll (Document.host id) (fun _ => none) 0xFFFFFFFE htextual hmade hlen).2 s

end TreeEdit
