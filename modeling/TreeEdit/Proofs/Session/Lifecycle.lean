import TreeEdit.Proofs.Listener.Transcript
import TreeEdit.Proofs.Machine.Depth
import TreeEdit.Proofs.Session.History
import TreeEdit.Proofs.Session.Refusal

/-!
# The life of a session

Whatever a session is asked for, and whatever its host refuses, between two requests its stack is
empty and its queue holds the ranges that were accepted since the last application. The first
request to end the session ends it for good: it has nothing left, every request is refused, and all
listeners that were ever handed out are revoked (`lifecycle_of_history`).
-/

namespace TreeEdit.Session

open Binary (Bytes)
open Step (Leads)

variable {δ ν β τ : Type} {H : Host δ ν β} {E : δ → δ → Prop} {s s' : Session δ ν β τ}
  {log : Log τ}

/-! ## Requests one by one -/

/-- A session that is over refuses every request, and nothing happens. -/
theorem serve_of_unmounted (hu : s.lifecycle = .unmounted) (r : Request τ) :
    serve H r s = .error .unmounted s := by
  have hover := ensureActive_of_unmounted hu
  cases r with
  | queue | apply | addString | getString | installTrampoline | unmount =>
    exact Step.bind_error (Step.bind_error hover)

/-- However a run ends, its application forgets the slots, and the limit stays. -/
theorem stack_after_apply (ha : s.lifecycle = .active) (hp : s.pending ≠ []) (mem : Bytes) :
    (Step.after (apply H mem) s).stack = .empty s.stack.limit := by
  obtain ⟨notice, h⟩ := after_apply_of_active (H := H) ha hp mem
  have hwork : Leads (fun m m' => m.stack.StaysWithin m'.stack) (work H mem s) :=
    work_leads Machine.deeds_staysWithin Machine.stores_staysWithin Machine.notes_staysWithin mem s
  rw [h]
  exact congrArg Stack.empty (Step.leads_iff.mp hwork s.toMachine).limit

/-- The session that is left by the end of a session, with its scene torn down. -/
def ended (s : Session δ ν β τ) (c : Scene δ ν β τ) (notice : Notice) : Session δ ν β τ :=
  { s with
    toScene := { c with journal := c.journal.push notice }
    stack := s.stack.clear
    strings := .empty
    pending := []
    lifecycle := .unmounted }

/-- The session is over, whether the document refuses something or not. -/
theorem after_unmount_of_active (ha : s.lifecycle = .active) :
    Step.after (unmount H) s =
      s.ended (Step.after (Scene.teardown H) s.toScene) (.unmounted s.listeners.size) := by
  refine Step.Ends.after (P := fun s' =>
    s' = s.ended (Step.after (Scene.teardown H) s.toScene) (.unmounted s.listeners.size)) ?_
  rw [unmount, Step.ends_bind, Step.Ends, ensureActive_of_active ha]
  show Step.Ends _ s _ _
  rw [Step.ends_bind, Step.ends_modify, Step.ends_bind, Step.ends_get]
  dsimp only
  rw [Step.ends_bind, Step.ends_outcome, onScene, ends_onMachine, Machine.ends_onScene, Step.Ends,
    Step.after]
  cases Scene.teardown H s.toScene with
  | ok _ c => exact rfl
  | error e c => exact rfl

/-! ## All requests -/

/-- The ranges that were accepted since the last application. -/
def waiting : Log τ → List Span
  | [] => []
  | (.apply _, _) :: _ => []
  | (.queue span, .ok _) :: log => waiting log ++ [span]
  | _ :: log => waiting log

/-- What is left of a session that is over. -/
structure Bare (s : Session δ ν β τ) : Prop where
  pending : s.pending = []
  strings : s.strings = .empty
  entries : ∀ place, s.listeners.entries.get? place = none
  trampoline : s.listeners.trampoline = none

/-- What holds between two requests. -/
structure Orderly (s : Session δ ν β τ) (log : Log τ) : Prop where
  stack : s.stack = .empty s.config.maxStackDepth
  pending : s.lifecycle = .active → s.pending = waiting log
  ended : s.lifecycle = .unmounted ↔ ∃ ending, (.unmount, ending) ∈ log
  bare : s.lifecycle = .unmounted → s.Bare

/-- A request to a session in use that is not the one to end it. -/
theorem Orderly.goesOn {r : Request τ} {answer : Except Error (Option String)}
    (h : Orderly s log) (ha : s.lifecycle = .active) (ha' : s'.lifecycle = .active)
    (stack : s'.stack = .empty s'.config.maxStackDepth)
    (pending : s'.pending = waiting ((r, answer) :: log))
    (hr : r ≠ .unmount) : Orderly s' ((r, answer) :: log) where
  stack := stack
  pending _ := pending
  ended := by
    constructor
    · intro hover
      cases ha'.symm.trans hover
    · rintro ⟨answer', hmem⟩
      rcases List.mem_cons.mp hmem with heq | hmem
      · exact absurd (congrArg Prod.fst heq).symm hr
      · cases ha.symm.trans (h.ended.mpr ⟨answer', hmem⟩)
  bare hover := by cases ha'.symm.trans hover

theorem after_answered (x : Act δ ν β τ Unit) (s : Session δ ν β τ) :
    Step.after (do x; return none : Act δ ν β τ (Option String)) s = Step.after x s := by
  unfold Step.after
  cases hx : x s with
  | ok u s' =>
    rw [Step.bind_ok hx]
    rfl
  | error e s' => rw [Step.bind_error hx]

/-- What one request does to a session in use. -/
theorem Orderly.serve_active (h : Orderly s log) (ha : s.lifecycle = .active) (r : Request τ) :
    Orderly (Step.after (Session.serve H r) s) ((r, ending (Session.serve H r) s) :: log) := by
  have hactive := ensureActive_of_active ha
  cases r with
  | queue span =>
    have hqueue : queue span s = .ok () { s with pending := s.pending ++ [span] } :=
      Step.bind_ok hactive
    have hserve : Session.serve H (.queue span) s
        = .ok none { s with pending := s.pending ++ [span] } := Step.bind_ok hqueue
    rw [Step.after, ending, hserve]
    refine h.goesOn ha ha h.stack ?_ (by simp)
    rw [waiting, ← h.pending ha]
  | apply mem =>
    have hafter : Step.after (Session.serve H (.apply mem)) s = Step.after (apply H mem) s :=
      after_answered _ s
    rw [hafter]
    by_cases hp : s.pending = []
    · rw [Step.after, apply_of_idle ha hp]
      exact h.goesOn ha ha h.stack hp (by simp)
    · have hstack := stack_after_apply (H := H) ha hp mem
      obtain ⟨notice, hafter⟩ := after_apply_of_active (H := H) ha hp mem
      rw [h.stack] at hstack
      rw [hafter] at hstack ⊢
      exact h.goesOn ha ha hstack rfl (by simp)
  | addString text id =>
    have hadd : addString text id s = .ok () { s with strings := s.strings.add text id } :=
      Step.bind_ok hactive
    have hserve : Session.serve H (.addString text id) s
        = .ok none { s with strings := s.strings.add text id } := Step.bind_ok hadd
    rw [Step.after, ending, hserve]
    exact h.goesOn ha ha h.stack (h.pending ha) (by simp)
  | getString id =>
    have hget : getString id s = Step.ofExcept (s.strings.get id) s := Step.bind_ok hactive
    have hsame : Step.after (getString id >>= fun text => pure (some text)) s = s := by
      unfold Step.after
      cases hid : s.strings.get id with
      | ok text =>
        rw [hid] at hget
        rw [Step.bind_ok hget]
        rfl
      | error e =>
        rw [hid] at hget
        rw [Step.bind_error hget]
    show Orderly (Step.after (getString id >>= fun text => pure (some text)) s) _
    rw [hsame]
    exact h.goesOn ha ha h.stack (h.pending ha) (by simp)
  | installTrampoline trampoline =>
    have hinstall : installTrampoline trampoline s
        = .ok () { s with listeners := s.listeners.install trampoline } := Step.bind_ok hactive
    have hserve : Session.serve H (.installTrampoline trampoline) s
        = .ok none { s with listeners := s.listeners.install trampoline } := Step.bind_ok hinstall
    rw [Step.after, ending, hserve]
    exact h.goesOn ha ha h.stack (h.pending ha) (by simp)
  | unmount =>
    have hafter : Step.after (Session.serve H .unmount) s = Step.after (unmount H) s :=
      after_answered _ s
    rw [hafter, after_unmount_of_active ha]
    have hclear := Step.Ends.after (P := fun c : Scene δ ν β τ =>
      (∀ place, c.listeners.entries.get? place = none) ∧ c.listeners.trampoline = none)
      (Scene.teardown_clears (H := H) s.toScene)
    exact {
      stack := congrArg Stack.clear h.stack
      pending := fun hactive => by cases hactive
      ended := ⟨fun _ => ⟨_, List.mem_cons_self⟩, fun _ => rfl⟩
      bare := fun _ => ⟨rfl, rfl, hclear.1, hclear.2⟩ }

theorem Orderly.serve (h : Orderly s log) (r : Request τ) :
    Orderly (Step.after (Session.serve H r) s) ((r, ending (Session.serve H r) s) :: log) := by
  cases ha : s.lifecycle with
  | active => exact h.serve_active ha r
  | unmounted =>
    rw [Step.after, ending, serve_of_unmounted ha]
    refine ⟨h.stack, fun hactive => ?_, ⟨fun _ => ?_, fun _ => ha⟩, h.bare⟩
    · cases ha.symm.trans hactive
    · obtain ⟨answer, hmem⟩ := h.ended.mp ha
      exact ⟨answer, List.mem_cons_of_mem _ hmem⟩

theorem Orderly.slots (h : Orderly s log) : s.stack.slots = [] :=
  congrArg Stack.slots h.stack

theorem orderly_of_history {doc : δ} {root : ν} {config : Config}
    (h : History H E (start doc root config) log s) : Orderly s log := by
  induction h with
  | start => exact ⟨rfl, fun _ => rfl, ⟨nofun, nofun⟩, nofun⟩
  | serve _ r ih => exact ih.serve r
  | edit _ _ ih => exact ⟨ih.stack, ih.pending, ih.ended, fun hu =>
      have hbare := ih.bare hu
      ⟨hbare.pending, hbare.strings, hbare.entries, hbare.trampoline⟩⟩

/-- Whatever becomes of an application, no range is left in the queue. -/
theorem Orderly.pending_after_apply (h : Orderly s log) (mem : Bytes) :
    (Step.after (apply H mem) s).pending = [] := by
  cases ha : s.lifecycle with
  | unmounted =>
    rw [Step.after, apply, Step.bind_error (ensureActive_of_unmounted ha)]
    exact (h.bare ha).pending
  | active =>
    by_cases hp : s.pending = []
    · rw [Step.after, apply_of_idle ha hp]
      exact hp
    · obtain ⟨notice, hafter⟩ := after_apply_of_active (H := H) ha hp mem
      rw [hafter]
      rfl

/-! ## The whole life -/

/-- What others do to a document is not part of the transcript. -/
def Undisturbed (d d' : Transcript δ ν β) : Prop :=
  d'.exchanges = d.exchanges

variable {t t' : Session (Transcript δ ν β) ν β τ}

theorem duties_vouched : Duties (τ := τ) H.transcribed Scene.StaysVouched :=
  .ofCustody Scene.custody_vouched Scene.call_vouched

theorem staysVouched_of_history (h : History H.transcribed Undisturbed t log t') :
    Scene.StaysVouched t.toScene t'.toScene := by
  refine duties_vouched.history (fun c d hd hc => ?_) h
  have hd : d.exchanges = c.doc.exchanges := hd
  refine hc.aside ?_ (fun id => ?_) rfl (Registry.remembers_of_listeners rfl)
  · rw [Transcript.Extends, hd]
  · rw [Transcript.Bound, Transcript.Bound, hd]
    exact fun h => h

/-- What has become of a session that is over: it refuses everything and does nothing, has nothing
left, and the listeners that a document ever bound deliver nothing. -/
structure Spent (H : Host δ ν β) (t : Session (Transcript δ ν β) ν β τ) : Prop where
  refuses : ∀ r, serve H.transcribed r t = .error .unmounted t
  slots : t.stack.slots = []
  pending : t.pending = []
  strings : t.strings = .empty
  listeners : t.listeners.isEmpty = true
  trampoline : t.listeners.trampoline = none
  revoked : ∀ id, t.doc.Bound id → ∃ l, t.listeners.listener? id = some l ∧
    ∀ event, t.listeners.fire id event = .error (.listenerRevoked l.eventType)

/-- A session may be asked for anything, and its host may refuse anything. Between two requests the
stack is empty; the session is over just when its end has been asked for, however that ended; as
long as it is not, its queue holds the ranges accepted since the last application, and an
application with an empty queue does nothing; any application leaves the queue empty; and when the
session is over it is spent. Every listener that was ever to be found in it was bound. -/
theorem lifecycle_of_history {doc : δ} {root : ν} {config : Config}
    (h : History H.transcribed Undisturbed (start ⟨doc, []⟩ root config) log t) :
    t.stack.slots = [] ∧
    (t.lifecycle = .unmounted ↔ ∃ answer, (Request.unmount, answer) ∈ log) ∧
    (t.lifecycle = .active → t.pending = waiting log ∧
      (t.pending = [] → ∀ mem, apply H.transcribed mem t = .ok () t)) ∧
    (∀ mem, (Step.after (apply H.transcribed mem) t).pending = []) ∧
    (t.lifecycle = .unmounted → Spent H t) ∧
    ∀ (log₁ log₂ : Log τ) (t₁ : Session (Transcript δ ν β) ν β τ) (node : ν) (eventType : String)
      (id : ListenerId), History H.transcribed Undisturbed (start ⟨doc, []⟩ root config) log₁ t₁ →
      History H.transcribed Undisturbed t₁ log₂ t →
      t₁.listener? H.transcribed node eventType = some id → t.doc.Bound id := by
  have horderly := orderly_of_history h
  have hnew : (start ⟨doc, []⟩ root config : Session (Transcript δ ν β) ν β τ).Vouched :=
    ⟨nofun, nofun, fun ⟨_, _, _, hmem⟩ => absurd hmem List.not_mem_nil⟩
  have hvouched := (staysVouched_of_history h hnew).1
  refine ⟨horderly.slots, horderly.ended, fun ha => ⟨horderly.pending ha, fun hp mem => ?_⟩,
    horderly.pending_after_apply, fun hu => ?_, fun log₁ log₂ t₁ node eventType id h₁ h₂ hid => ?_⟩
  · exact apply_of_idle ha hp mem
  · have hbare := horderly.bare hu
    refine ⟨serve_of_unmounted hu, horderly.slots, hbare.pending, hbare.strings,
      Registry.isEmpty_of_entries hbare.entries, hbare.trampoline, fun id hid => ?_⟩
    rcases hvouched.kept hid with ⟨place, e, he, -⟩ | hrevoked
    · cases (hbare.entries place).symm.trans he
    · exact Registry.fire_of_revoked hrevoked
  · obtain ⟨e, he, rfl⟩ := Option.map_eq_some_iff.mp hid
    have hvouched₁ := (staysVouched_of_history h₁ hnew).1
    exact (hvouched₁.bound he).mono (staysVouched_of_history h₂ hvouched₁).2

/-! ## An end that the document refuses -/

open Document (host)

/-- A document that refuses the second call to it. -/
abbrev stubborn : Host (Watched (Document ListenerId) NodeId Nat) NodeId Nat :=
  (host id).watched (Host.refusing 2 (.stated "busy"))

/-- A new session whose first node is a button. -/
def onStubborn : Session (Transcript (Watched (Document ListenerId) NodeId Nat) NodeId Nat)
    NodeId Nat Unit :=
  start ⟨⟨Document.withSeed "main" "button", #[]⟩, []⟩ ⟨0⟩ .standard

/-- The session with a name for an event and a range queued. -/
def onStubbornQueued : Session (Transcript (Watched (Document ListenerId) NodeId Nat) NodeId Nat)
    NodeId Nat Unit :=
  Step.after (serve stubborn.transcribed (.queue ⟨0, 16⟩))
    (Step.after (serve stubborn.transcribed (.addString "click" 0)) onStubborn)

/-- A program that attaches a listener. -/
def attachOnly : Bytes :=
  (Instr.newListener 0 1 2).encode ++ []

theorem unmount_onStubborn : ∃ m t,
    apply stubborn.transcribed attachOnly onStubbornQueued = .ok () m ∧
      unmount stubborn.transcribed m = .error (.host (.stated "busy")) t ∧
      t.doc.Bound ⟨0⟩ ∧ (t.listeners.listener? ⟨0⟩).map (·.eventType) = some "click" := by
  let m₀ := onStubbornQueued.toMachine.withSlots [some ⟨1⟩]
  obtain ⟨m, hm, hdepth, t, ht, hbound, htype⟩ : ∃ m,
      Machine.runFrom stubborn.transcribed attachOnly false ⟨0, attachOnly⟩ 0 m₀ = .ok 1 m ∧
      m.stack.depth = 1 ∧
      ∃ t, unmount stubborn.transcribed ({ onStubbornQueued with toMachine := m }.closed
          (.applied 1 1)) = .error (.host (.stated "busy")) t ∧
        t.doc.exchanges = [⟨.done, .unlisten ⟨1⟩ "click" 1, .error (.stated "busy")⟩,
          ⟨.binding, .listen ⟨1⟩ "click" ⟨0⟩, .ok 1⟩] ∧
        (t.listeners.listener? ⟨0⟩).map (·.eventType) = some "click" := by
    refine ⟨?_, ?_, ?_, ?_⟩
    rotate_left
    · show Machine.runFrom stubborn.transcribed attachOnly false
        ⟨0, (Instr.newListener 0 1 2).encode ++ []⟩ 0 m₀ = _
      rw [Machine.runFrom_encode, Machine.runFrom_nil]
      rfl
    · rfl
    · exact ⟨_, rfl, rfl, rfl⟩
  have hall : Machine.runAll stubborn.transcribed attachOnly false [⟨0, 16⟩] m₀ = .ok 1 m :=
    Step.bind_ok hm
  have hrun : run stubborn.transcribed attachOnly onStubbornQueued
      = .ok 1 { onStubbornQueued with toMachine := m } :=
    run_of_runAll rfl hall fun h => absurd h.2 (by omega)
  refine ⟨_, t, ?_, ht, ⟨⟨1⟩, "click", 1, ?_⟩, htype⟩
  · rw [apply_of_active rfl (List.cons_ne_nil _ _), hrun]
    rfl
  · rw [hbound]
    exact List.mem_cons_of_mem _ List.mem_cons_self

/-- The session is over though its end was refused, and the listener on the button is revoked. -/
theorem spent_onStubborn : ∃ log t, History stubborn.transcribed Undisturbed onStubborn log t ∧
    (.unmount, .error (.host (.stated "busy"))) ∈ log ∧ t.lifecycle = .unmounted ∧
    ∀ event, t.listeners.fire ⟨0⟩ event = .error (.listenerRevoked "click") := by
  obtain ⟨m, t, happly, hunmount, hbound, htype⟩ := unmount_onStubborn
  have hqueued : History stubborn.transcribed Undisturbed onStubborn _ onStubbornQueued :=
    (History.start.serve (.addString "click" 0)).serve (.queue ⟨0, 16⟩)
  have happlied := hqueued.serve_ok (r := .apply attachOnly) (Step.bind_ok happly)
  have hlast := happlied.serve_error (r := .unmount) (Step.bind_error hunmount)
  obtain ⟨-, hover, -, -, hspent, -⟩ := lifecycle_of_history hlast
  have hunmounted : t.lifecycle = .unmounted := hover.mpr ⟨_, List.mem_cons_self⟩
  obtain ⟨l, hl, hfire⟩ := (hspent hunmounted).revoked ⟨0⟩ hbound
  rw [hl] at htype
  have hclick : l.eventType = "click" := Option.some.inj htype
  refine ⟨_, t, hlast, List.mem_cons_self, hunmounted, fun event => ?_⟩
  rw [hfire event, hclick]

end TreeEdit.Session
