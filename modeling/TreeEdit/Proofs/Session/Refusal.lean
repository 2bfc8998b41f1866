import TreeEdit.Document.Hosting
import TreeEdit.Host.Watched
import TreeEdit.Proofs.Session.Following

/-!
# Applications whose document refuses one call

A watched host that refuses nothing records the calls of an application and changes nothing about
it. One that refuses the call with number `n + 1` follows it up to there. So the two applications
are the same if there are no more than `n` calls. Otherwise the refusal ends the application at
once: the calls made are the first `n + 1` of the recorded ones, and the document is as the first
`n` of them left it (`apply_refusing`).
-/

namespace TreeEdit

variable {δ ν β τ : Type}

/-! ## Hosts -/

namespace Host

/-- Refuses the call with number `n` and no other. -/
def refusing (n : Nat) (e : HostError) : Nat → Option HostError :=
  fun k => if k = n then some e else none

/-- The document after some calls, whatever they were answered. -/
def replay (H : Host δ ν β) (d : δ) (calls : List (AnyCall ν β)) : δ :=
  calls.foldl (fun d c => Step.after (H.perform c.2) d) d

variable {H : Host δ ν β} {k : Reply}

theorem replay_concat (d : δ) (calls : List (AnyCall ν β)) (c : AnyCall ν β) :
    H.replay d (calls ++ [c]) = Step.after (H.perform c.2) (H.replay d calls) := by
  rw [replay, List.foldl_append]
  rfl

theorem perform_of_refused {refuse : Nat → Option HostError} {w : Watched δ ν β} {e : HostError}
    (h : refuse (w.calls.size + 1) = some e) (c : HostCall ν β k) :
    (H.watched refuse).perform c w = .error e ⟨w.doc, w.calls.push ⟨k, c⟩⟩ := by
  simp only [watched, Array.size_push, h]

theorem perform_of_not_refused {refuse : Nat → Option HostError} {w : Watched δ ν β}
    (h : refuse (w.calls.size + 1) = none) (c : HostCall ν β k) :
    (H.watched refuse).perform c w = (H.watched fun _ => none).perform c w := by
  simp only [watched, Array.size_push, h]

/-! ### The first refusal -/

/-- Nothing has been refused yet: the documents are the same, no more than `n` calls have been made,
and they have led there from `d`. -/
structure Unrefused (H : Host δ ν β) (d : δ) (n : Nat) (w w' : Watched δ ν β) : Prop where
  same : w' = w
  room : w.calls.size ≤ n
  led : w.doc = H.replay d w.calls.toList

/-- The call with number `n + 1` has been refused: it is the last one, and those before it have led
from `d` to where the document is. The calls recorded go on from there. -/
structure Refused (H : Host δ ν β) (d : δ) (n : Nat) (e : HostError) (w : Watched δ ν β)
    (r : HostError) (w' : Watched δ ν β) : Prop where
  reason : r = e
  last : w'.calls.size = n + 1
  recorded : w'.calls.toList <+: w.calls.toList
  led : w'.doc = H.replay d (w'.calls.toList.take n)

theorem refusing_follows (H : Host δ ν β) (d : δ) (n : Nat) (e : HostError) :
    (H.watched fun _ => none).Follows (H.watched (refusing (n + 1) e)) (H.Unrefused d n)
      (H.Refused d n e) where
  key h _ := by rw [h.same]; rfl
  rootSeed h _ := by rw [h.same]; rfl
  firstChild h _ := by rw [h.same]; rfl
  nextSibling h _ := by rw [h.same]; rfl
  extent h := by rw [h.same]; rfl
  perform {k} c := by
    constructor
    · rintro _ w ⟨rfl, hroom, hled⟩
      by_cases hn : w.calls.size = n
      · -- this is the call that is refused
        have hrefuse : refusing (n + 1) e (w.calls.size + 1) = some e := by
          rw [refusing, if_pos (by rw [hn])]
        refine .inr ⟨e, _, perform_of_refused hrefuse c, rfl, ?_, ?_, ?_⟩
        · rw [Array.size_push, hn]
        · exact (after_recorded c w).symm ▸ List.prefix_refl _
        · rw [Array.toList_push, List.take_left' (by rw [Array.length_toList, hn])]
          exact hled
      · have hrefuse : refusing (n + 1) e (w.calls.size + 1) = none := by
          rw [refusing, if_neg (by omega)]
        left
        have hafter : H.Unrefused d n
            (Step.after ((H.watched fun _ => none).perform c) w)
            (Step.after ((H.watched fun _ => none).perform c) w) := by
          rw [after_recorded]
          refine ⟨rfl, ?_, ?_⟩
          · rw [Array.size_push]
            omega
          · rw [Array.toList_push, replay_concat, ← hled]
        unfold Step.Agree
        unfold Step.after at hafter
        rw [perform_of_not_refused hrefuse]
        cases hw : (H.watched fun _ => none).perform c w with
        | ok a t =>
          rw [hw] at hafter
          exact ⟨rfl, hafter⟩
        | error r t =>
          rw [hw] at hafter
          exact ⟨rfl, hafter⟩
    · rw [Step.leads_iff]
      intro w r w' h
      refine ⟨h.reason, h.last, h.recorded.trans ?_, h.led⟩
      rw [after_recorded, Array.toList_push]
      exact List.prefix_append _ _

end Host

/-! ## Sessions -/

namespace Session

open Binary (Bytes)

/-- The session with its document under watch. No call has been made yet. -/
def watched (s : Session δ ν β τ) : Session (Watched δ ν β) ν β τ :=
  { s with doc := ⟨s.doc, #[]⟩ }

/-- The session without the watch. -/
def unwatched (s : Session (Watched δ ν β) ν β τ) : Session δ ν β τ :=
  { s with doc := s.doc.doc }

/-- The calls that an application makes. -/
def calls (H : Host δ ν β) (mem : Bytes) (s : Session δ ν β τ) : List (AnyCall ν β) :=
  (Step.after (apply (H.watched fun _ => none) mem) s.watched).doc.calls.toList

theorem unwatched_of_paired {s : Session δ ν β τ} {w : Session (Watched δ ν β) ν β τ}
    (h : s.Paired (fun d w => w.doc = d) w) : w.unwatched = s :=
  calc w.unwatched
    _ = { s with doc := w.doc.doc } := congrArg unwatched h.eq
    _ = s := by rw [h.machine.scene.doc]

/-- The sessions are the same, the watch apart. -/
abbrev SameWatched (s : Session δ ν β τ) (w : Session (Watched δ ν β) ν β τ) : Prop :=
  w.unwatched = s

/-- To record the calls changes nothing about an application. -/
theorem apply_recorded (H : Host δ ν β) (mem : Bytes) (s : Session δ ν β τ) :
    Step.Agree SameWatched (apply H mem) (apply (H.watched fun _ => none) mem) s s.watched := by
  have hs : s.Paired (fun d w => w.doc = d) s.watched :=
    ⟨⟨⟨rfl, rfl, rfl⟩, rfl, rfl⟩, rfl, rfl, rfl, rfl⟩
  rcases apply_follows (Host.watched_follows H) mem hs with hagree | ⟨_, _, -, ⟨_, -, hB⟩, -⟩
  · exact Step.Agree.mono hagree fun _ _ => unwatched_of_paired
  · exact hB.elim

/-- An application whose document refuses the call with number `n + 1`. If no more than `n` calls
are made, it is as if nothing could be refused. Otherwise it fails with that refusal: its calls are
the first `n + 1`, the document is as the first `n` of them left it, and neither queue nor stack
holds anything. -/
theorem apply_refusing (H : Host δ ν β) (mem : Bytes) (s : Session δ ν β τ) (n : Nat)
    (e : HostError) :
    Step.Agree SameWatched (apply H mem) (apply (H.watched fun _ => none) mem) s s.watched ∧
      ((s.calls H mem).length ≤ n ∧
          Step.Agree SameWatched (apply H mem) (apply (H.watched (Host.refusing (n + 1) e)) mem)
            s s.watched ∨
        n < (s.calls H mem).length ∧
          ∃ w, apply (H.watched (Host.refusing (n + 1) e)) mem s.watched = .error (.host e) w ∧
            w.doc.calls.toList = (s.calls H mem).take (n + 1) ∧
            w.doc.doc = H.replay s.doc ((s.calls H mem).take n) ∧
            w.pending = [] ∧ w.stack.slots = []) := by
  have hs : s.watched.Paired (H.Unrefused s.doc n) s.watched :=
    ⟨⟨⟨⟨rfl, Nat.zero_le _, rfl⟩, rfl, rfl⟩, rfl, rfl⟩, rfl, rfl, rfl, rfl⟩
  have hrecorded := apply_recorded H mem s
  refine ⟨hrecorded, ?_⟩
  rcases apply_follows (Host.refusing_follows H s.doc n e) mem hs with
    hagree | ⟨r, w, hw, ⟨r, rfl, hrefused⟩, hpending, hstack⟩
  · have hroom : (s.calls H mem).length ≤ n := hagree.after.machine.scene.doc.room
    refine .inl ⟨hroom, hrecorded.trans hagree fun t w w' hw hw' => ?_⟩
    have hsame : w' = w := by
      rw [hw'.eq, hw'.machine.scene.doc.same]
    exact hsame ▸ hw
  · obtain ⟨rfl, hlast, hprefix, hled⟩ := hrefused
    have hcalls : w.doc.calls.toList = (s.calls H mem).take (n + 1) := by
      rw [List.prefix_iff_eq_take.mp hprefix, Array.length_toList, hlast]
      rfl
    refine .inr ⟨?_, w, hw, hcalls, ?_, hpending, hstack⟩
    · have hle := hprefix.length_le
      rw [Array.length_toList, hlast] at hle
      exact hle
    · rw [hled, hcalls, List.take_take, Nat.min_eq_left (Nat.le_succ n)]

/-! ## A box that is half checked -/

open Document (host)

/-- A session whose first node is a control, with a range queued and a name for an attribute. -/
def onBox : Session (Document ListenerId) NodeId Nat Unit :=
  Step.after (queue ⟨0, 12⟩)
    (Step.after (addString "checked" 0) (start (Document.withSeed "main" "input") ⟨0⟩ .standard))

/-- A program that sets an attribute that a live property follows. -/
def checkBox : Bytes :=
  (Instr.setAttribute 0 0).encode ++ []

theorem calls_onBox : onBox.calls (host id) checkBox =
    [⟨.done, .setAttribute ⟨1⟩ "checked" "checked"⟩,
      ⟨.done, .setProperty ⟨1⟩ (.checked true)⟩] := by
  let H : Host (Watched (Document ListenerId) NodeId Nat) NodeId Nat :=
    (host id).watched fun _ => none
  let m₀ := onBox.watched.toMachine.withSlots [some ⟨1⟩]
  obtain ⟨m, hm, hdepth, hcalls⟩ : ∃ m,
      Machine.runFrom H checkBox false ⟨0, checkBox⟩ 0 m₀ = .ok 1 m ∧ m.stack.depth = 1 ∧
      m.doc.calls.toList = [⟨.done, .setAttribute ⟨1⟩ "checked" "checked"⟩,
        ⟨.done, .setProperty ⟨1⟩ (.checked true)⟩] := by
    refine ⟨?_, ?_, ?_, ?_⟩
    rotate_left
    · show Machine.runFrom H checkBox false ⟨0, (Instr.setAttribute 0 0).encode ++ []⟩ 0 m₀ = _
      rw [Machine.runFrom_encode, Machine.runFrom_nil]
      rfl
    · rfl
    · rfl
  have hall : Machine.runAll H checkBox false [⟨0, 12⟩] m₀ = .ok 1 m := Step.bind_ok hm
  have hrun : run H checkBox onBox.watched = .ok 1 { onBox.watched with toMachine := m } :=
    run_of_runAll rfl hall fun h => absurd h.2 (by omega)
  unfold calls Step.after
  rw [apply_of_active rfl (List.cons_ne_nil _ _), hrun]
  exact hcalls

/-- If the second call is refused, the attribute is set and the property does not follow. -/
theorem apply_refusing_onBox (e : HostError) :
    ∃ w, apply ((host id).watched (Host.refusing 2 e)) checkBox onBox.watched
        = .error (.host e) w ∧
      w.doc.doc = Step.after ((host id).perform (.setAttribute ⟨1⟩ "checked" "checked"))
        onBox.doc := by
  rcases (apply_refusing (host id) checkBox onBox 1 e).2 with ⟨hle, -⟩ | ⟨-, w, hw, -, hdoc, -⟩
  · rw [calls_onBox] at hle
    exact absurd hle (by decide)
  · rw [calls_onBox] at hdoc
    exact ⟨w, hw, hdoc⟩

end Session

end TreeEdit
