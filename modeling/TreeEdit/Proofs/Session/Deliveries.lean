import TreeEdit.Document.Dispatch
import TreeEdit.Proofs.Listener.Ledger
import TreeEdit.Proofs.Session.Reached

/-!
# Where events go

A session that alone touches the handlers of its document keeps a ledger of its listeners without
knowing it: the ledger of the listener instructions that it has executed. An event that is
dispatched to a node goes to the trampoline that was installed last, once, with the handles that the
ledger has for the node and the type (`dispatch_of_recorded`). Applications that end with an error
are no exception; what they executed before it counts.
-/

namespace TreeEdit

open Binary (Bytes)
open Document (host)

variable {τ : Type}

/-- Answers a callback by firing its listener. The deliveries to the trampoline are logged. -/
def Registry.deliver {ν β : Type} (r : Registry ν β τ) (id : ListenerId) (event : Event) :
    EStateM Error (List (Delivery τ)) Unit := fun log =>
  match r.fire id event with
  | .ok delivery => .ok () (log ++ [delivery])
  | .error e => .error e log

namespace Session

variable {s s' : Session (Document ListenerId) NodeId Nat τ} {M : Ledger} {T : Option τ}

/-! ## Sessions and their ledgers -/

/-- What an application does about listeners. -/
def acts (mem : Bytes) (s : Session (Document ListenerId) NodeId Nat τ) : List ListenerAct :=
  Machine.acts (s.executions (host id) mem)

/-- A life of a session on a document without handlers, with the ledger that it has come to and the
trampoline that was installed last. -/
inductive Recorded : Session (Document ListenerId) NodeId Nat τ → Ledger → Option τ → Prop
  | start {d : Document ListenerId} {root : NodeId} (hd : d.Reachable)
      (hbare : ∀ n, d.handlers n = []) (hroot : d.Known root) (config : Config) :
      Recorded (start d root config) .empty none
  | queue {s : Session (Document ListenerId) NodeId Nat τ} {M : Ledger} {T : Option τ}
      (h : Recorded s M T) (span : Span) : Recorded (Step.after (queue span) s) M T
  | apply {s : Session (Document ListenerId) NodeId Nat τ} {M : Ledger} {T : Option τ}
      (h : Recorded s M T) (mem : Bytes) :
      Recorded (Step.after (apply (host id) mem) s) (Step.after (Ledger.actAll (s.acts mem)) M) T
  | addString {s : Session (Document ListenerId) NodeId Nat τ} {M : Ledger} {T : Option τ}
      (h : Recorded s M T) (text : String) (id : UInt32) :
      Recorded (Step.after (addString text id) s) M T
  | installTrampoline {s : Session (Document ListenerId) NodeId Nat τ} {M : Ledger}
      {T : Option τ} (h : Recorded s M T) (trampoline : τ) :
      Recorded (Step.after (installTrampoline trampoline) s) M
        (if s.lifecycle = .active then some trampoline else T)
  | unmount {s : Session (Document ListenerId) NodeId Nat τ} {M : Ledger} {T : Option τ}
      (h : Recorded s M T) :
      Recorded (Step.after (unmount (host id)) s)
        (if s.lifecycle = .active then .empty else M) (if s.lifecycle = .active then none else T)
  /-- A call that is not made by the session, and not about listeners. -/
  | edit {s : Session (Document ListenerId) NodeId Nat τ} {M : Ledger} {T : Option τ}
      (h : Recorded s M T) {k : Reply} (c : HostCall NodeId Nat k) (hc : c.Mute) :
      Recorded { s with doc := Step.after ((host id).perform c) s.doc } M T

theorem Recorded.reached (h : Recorded s M T) : Reached id s := by
  induction h with
  | start hd _ hroot config => exact .start hd hroot config
  | queue _ span ih => exact ih.queue span
  | apply _ mem ih => exact ih.apply mem
  | addString _ text id ih => exact ih.addString text id
  | installTrampoline _ trampoline ih => exact ih.installTrampoline trampoline
  | unmount _ ih => exact ih.unmount
  | edit _ c _ ih => exact ih.edit ⟨id, _, c, rfl⟩

/-! ## Applications -/

theorem acts_of_unmounted (h : s.lifecycle = .unmounted) (mem : Bytes) : s.acts mem = [] := by
  rw [acts, executions, h]
  rfl

theorem acts_of_idle (h : s.pending = []) (mem : Bytes) : s.acts mem = [] := by
  rw [acts, executions, h]
  split <;> rfl

/-- A run of queued ranges does about listeners what its instructions do. -/
theorem run_books (hs : Settled s) (ha : s.lifecycle = .active) (h : Booked M T s.toScene)
    (mem : Bytes) :
    Step.Ends (run (host id) mem) s
      (fun _ s' => ∃ M', Ledger.actAll (s.acts mem) M = .ok () M' ∧ Booked M' T s'.toScene)
      fun e s' => ∃ M', Booked M' T s'.toScene ∧
        (Ledger.actAll (s.acts mem) M = .error e M' ∨
          Ledger.actAll (s.acts mem) M = .ok () M' ∧ e.NotMissing) := by
  have hfull (limit : Nat) : (Error.stackOverflow limit).NotMissing := nofun
  have hdeep (depth : Nat) : (Error.unbalancedStack depth).NotMissing := nofun
  have first : Stands id s.site s.toScene [s.doc.firstChild? s.root] := ⟨.refl, hs.keyed⟩
  rw [run, Step.ends_bind, Step.ends_get, acts, executions, ha]
  rcases Machine.push_cases ((host id).rootSeed s.doc s.root) s.toMachine with
    hpush | ⟨limit, hpush⟩
  · rw [hpush, Step.ends_bind, ends_onMachine, Step.Ends, hpush]
    dsimp only
    rw [Step.ends_bind, ends_onMachine]
    have pushed : Stands id s.site s.toScene
        (s.toMachine.withSlots (s.doc.firstChild? s.root :: s.stack.slots)).stack.slots := by
      rw [Machine.slots_withSlots, hs.slots]
      exact first
    refine (Machine.runAll_books
      (m := s.toMachine.withSlots (s.doc.firstChild? s.root :: s.stack.slots))
      hs.placed s.config.traced s.pending pushed h).mono (fun executed m hm => ?_) fun e m hm => hm
    obtain ⟨M', hM', hm'⟩ := hm
    rw [Step.ends_bind, Step.ends_get]
    dsimp only
    split
    · exact ⟨M', hm', .inr ⟨hM', hdeep _⟩⟩
    · exact ⟨M', hM', hm'⟩
  · rw [hpush, Step.ends_bind, ends_onMachine, Step.Ends, hpush]
    exact ⟨M, h, .inr ⟨rfl, hfull limit⟩⟩

/-- An application fails for want of a listener just where the ledger does. -/
theorem apply_books (hs : Settled s) (h : Booked M T s.toScene) (mem : Bytes) :
    Step.Ends (apply (host id) mem) s
      (fun _ s' => ∃ M', Ledger.actAll (s.acts mem) M = .ok () M' ∧ Booked M' T s'.toScene)
      fun e s' => ∃ M', Booked M' T s'.toScene ∧
        (Ledger.actAll (s.acts mem) M = .error e M' ∨
          Ledger.actAll (s.acts mem) M = .ok () M' ∧ e.NotMissing) := by
  have hover : Error.unmounted.NotMissing := nofun
  cases ha : s.lifecycle with
  | unmounted =>
    rw [apply, Step.ends_bind, Step.Ends, ensureActive_of_unmounted ha, acts_of_unmounted ha]
    exact ⟨M, h, .inr ⟨rfl, hover⟩⟩
  | active =>
    by_cases hp : s.pending = []
    · rw [Step.Ends, apply_of_idle ha hp, acts_of_idle hp]
      exact ⟨M, rfl, h⟩
    · rw [Step.Ends, apply_of_active ha hp]
      have hrun := run_books hs ha h mem
      unfold Step.Ends at hrun
      cases hr : run (host id) mem s with
      | ok executed s' =>
        rw [hr] at hrun
        obtain ⟨M', hM', hs'⟩ := hrun
        exact ⟨M', hM', hs'.of_same rfl rfl⟩
      | error e s' =>
        rw [hr] at hrun
        obtain ⟨M', hs', hwhy⟩ := hrun
        exact ⟨M', hs'.of_same rfl rfl, hwhy⟩

/-! ## Whole lives -/

theorem Recorded.booked (h : Recorded s M T) : Booked M T s.toScene := by
  induction h with
  | start hd hbare hroot config => exact ⟨.start hbare, fun _ _ => rfl, rfl⟩
  | @queue s M T h span ih =>
    refine Step.Ends.after (P := fun s' : Session _ _ _ τ => Booked M T s'.toScene) ?_
    rw [Session.queue, Step.ends_bind]
    exact ends_ensureActive (fun _ => ih.of_same rfl rfl) ih
  | @apply s M T h mem ih =>
    have hbooks := apply_books h.reached.settled ih mem
    refine Step.Ends.after
      (P := fun s' : Session _ _ _ τ =>
        Booked (Step.after (Ledger.actAll (s.acts mem)) M) T s'.toScene) ?_
    refine hbooks.mono (fun _ s' h' => ?_) fun e s' h' => ?_
    · obtain ⟨M', hM', hs'⟩ := h'
      rw [Step.after, hM']
      exact hs'
    · obtain ⟨M', hs', hM' | ⟨hM', -⟩⟩ := h'
      · rw [Step.after, hM']
        exact hs'
      · rw [Step.after, hM']
        exact hs'
  | @addString s M T h text id ih =>
    refine Step.Ends.after (P := fun s' : Session _ _ _ τ => Booked M T s'.toScene) ?_
    rw [Session.addString, Step.ends_bind]
    exact ends_ensureActive (fun _ => ih.of_same rfl rfl) ih
  | @installTrampoline s M T h trampoline ih =>
    cases ha : s.lifecycle with
    | unmounted =>
      rw [Step.after, Session.installTrampoline, Step.bind_error (ensureActive_of_unmounted ha)]
      exact ih
    | active =>
      rw [Step.after, Session.installTrampoline, Step.bind_ok (ensureActive_of_active ha)]
      have hkept : Registry.Kept False s.listeners s.doc (s.listeners.install trampoline) :=
        ih.inStep.of_same rfl rfl
      exact ⟨hkept.attended, ih.handles, rfl⟩
  | @unmount s M T h ih =>
    cases ha : s.lifecycle with
    | unmounted =>
      rw [Step.after, Session.unmount, Step.bind_error (ensureActive_of_unmounted ha)]
      exact ih
    | active =>
      rw [if_pos rfl, if_pos rfl]
      refine Step.Ends.after (P := fun s' : Session _ _ _ τ => Booked .empty none s'.toScene) ?_
      rw [Session.unmount, Step.ends_bind, Step.Ends, ensureActive_of_active ha]
      dsimp only
      rw [Step.ends_bind, Step.ends_modify, Step.ends_bind, Step.ends_get]
      dsimp only
      rw [Step.ends_bind, Step.ends_outcome, onScene, ends_onMachine, Machine.ends_onScene]
      refine (Scene.teardown_ends Document.binds_host ih.inStep).mono (fun _ c h' => ?_)
        fun e c h' => h'.2.2.2.elim
      obtain ⟨hkeeps, htrampoline, hentries⟩ := h'
      refine ⟨hkeeps.attended, fun n t => ?_, htrampoline⟩
      exact (Registry.handles?_eq_none_iff hkeeps.attended).mpr (hentries _)
  | @edit s M T h k c hc ih =>
    have hsame := Step.Ends.after
      (P := fun d : Document ListenerId => d.attendance = s.doc.attendance)
      (Document.perform_keeps_handlers id hc s.doc)
    exact ih.of_same rfl hsame

end Session

/-! ## Events -/

/-- What is to become of an event at a node, by the ledger and the trampoline installed last: it is
delivered once, it fails as nobody receives events, or nobody waits for it. -/
def Ledger.answer (M : Ledger) (T : Option τ) (n : NodeId) (t : String) :
    EStateM Error (List (Delivery τ)) Nat := fun log =>
  match M n t, T with
  | some handles, some trampoline => .ok 1 (log ++ [⟨trampoline, ⟨t, n.key⟩, handles⟩])
  | some _, none => .error .noTrampoline log
  | none, _ => .ok 0 log

namespace Booked

variable {M : Ledger} {T : Option τ} {c : Scene (Document ListenerId) NodeId Nat τ} {n : NodeId}
  {t : String}

/-- The listener in use for a node and a type answers with the handles of the ledger. -/
theorem fire_eq (h : Booked M T c) {e : Registry.Entry NodeId Nat}
    (he : c.listeners.entries.get? (n.key, t) = some e) :
    ∃ handles, M n t = some handles ∧ ∀ event,
      (T = none → c.listeners.fire e.listener event = .error .noTrampoline) ∧
      ∀ trampoline, T = some trampoline →
        c.listeners.fire e.listener event = .ok ⟨trampoline, event, handles⟩ := by
  obtain ⟨-, l, hl, -, -, hlive⟩ := h.inStep.inUse he
  refine ⟨l.handles, ?_, fun event => ?_⟩
  · rw [← h.handles, Registry.handles?, Registry.find?_of_entry he, Option.bind_some, hl]
    rfl
  · simp only [Registry.fire, hl, hlive, h.trampoline]
    constructor
    · rintro rfl
      rfl
    · rintro trampoline rfl
      rfl

/-- The only callback of a node for a type is that of the listener in use. -/
theorem callbacks_eq (h : Booked M T c) {node : Node ListenerId} (hn : c.doc.node? n = some node)
    (t : String) :
    Document.callbacks node t
      = ((c.listeners.entries.get? (n.key, t)).map (·.listener)).toList := by
  have htype := Registry.Attended.handlers_of_type h.inStep n t
  rw [id, Document.handlers_of_node? hn] at htype
  rw [Document.callbacks, htype]
  cases c.listeners.entries.get? (n.key, t) <;> rfl

theorem dispatch_eq (h : Booked M T c) (hn : c.doc.Known n) (t : String)
    (log : List (Delivery τ)) :
    Document.dispatch c.doc c.listeners.deliver n t log = M.answer T n t log := by
  obtain ⟨node, hnode⟩ := Document.known_iff.mp hn
  rw [Document.dispatch, hnode]
  dsimp only
  rw [h.callbacks_eq hnode t]
  cases he : c.listeners.entries.get? (n.key, t) with
  | none =>
    have hM : M n t = none := by
      rw [← h.handles, Registry.handles?_eq_none_iff h.inStep]
      exact he
    simp only [Ledger.answer, hM]
    rfl
  | some e =>
    obtain ⟨handles, hM, hfire⟩ := h.fire_eq he
    obtain ⟨hnone, hsome⟩ := hfire ⟨t, n.key⟩
    cases T with
    | none =>
      have hdeliver : c.listeners.deliver e.listener ⟨t, n.key⟩ log = .error .noTrampoline log := by
        rw [Registry.deliver, hnone rfl]
      simp only [Ledger.answer, hM]
      exact Step.bind_error (Step.bind_error hdeliver)
    | some trampoline =>
      have hdeliver : c.listeners.deliver e.listener ⟨t, n.key⟩ log
          = .ok () (log ++ [⟨trampoline, ⟨t, n.key⟩, handles⟩]) := by
        rw [Registry.deliver, hsome trampoline rfl]
      simp only [Ledger.answer, hM]
      exact Step.bind_ok (Step.bind_ok hdeliver)

end Booked

namespace Session

variable {s : Session (Document ListenerId) NodeId Nat τ} {M : Ledger} {T : Option τ}

/-- An event goes where the ledger of the session says, at every node that is there. The ledger is
kept by the listener instructions that were executed; one of them fails for want of a listener just
where the ledger has no entry. -/
theorem dispatch_of_recorded (h : Recorded s M T) :
    (∀ n t log, s.doc.Known n →
      Document.dispatch s.doc s.listeners.deliver n t log = M.answer T n t log) ∧
    ∀ mem t, (∃ s', apply (host id) mem s = .error (.missingListener t) s') ↔
      ∃ M', Ledger.actAll (s.acts mem) M = .error (.missingListener t) M' := by
  refine ⟨fun n t log hn => h.booked.dispatch_eq hn t log, fun mem t => ?_⟩
  obtain ⟨hok, herror⟩ := Step.ends_iff.mp (apply_books h.reached.settled h.booked mem)
  constructor
  · rintro ⟨s', hs'⟩
    obtain ⟨M', -, hM' | ⟨-, hmissing⟩⟩ := herror _ s' hs'
    · exact ⟨M', hM'⟩
    · exact absurd rfl (hmissing t)
  · rintro ⟨M', hM'⟩
    cases hs : apply (host id) mem s with
    | ok u s' =>
      obtain ⟨M'', hM'', -⟩ := hok u s' hs
      cases hM'.symm.trans hM''
    | error e s' =>
      obtain ⟨M'', -, hM'' | ⟨hM'', -⟩⟩ := herror e s' hs
      · cases hM'.symm.trans hM''
        exact ⟨s', rfl⟩
      · cases hM'.symm.trans hM''

/-- A session whose first node is a button, with a range queued and a name for a type of event. -/
def onButton : Session (Document ListenerId) NodeId Nat Unit :=
  Step.after (queue ⟨0, 16⟩)
    (Step.after (addString "click" 0) (start (Document.withSeed "main" "button") ⟨0⟩ .standard))

/-- A program that attaches a listener. -/
def listenToClick : Bytes :=
  (Instr.newListener 0 7 8).encode ++ []

/-- The session after it has run the program. -/
def clickable : Session (Document ListenerId) NodeId Nat Unit :=
  Step.after (apply (host id) listenToClick) onButton

theorem onButton_recorded : Recorded onButton .empty none := by
  have hbare (n : NodeId) :
      (Document.withSeed "main" "button" : Document ListenerId).handlers n = [] := by
    match n with
    | ⟨0⟩ | ⟨1⟩ => rfl
    | ⟨_ + 2⟩ => rfl
  have hd := Document.withSeed_reachable "main" "button"
  exact .queue (.addString (.start hd hbare (Nat.zero_lt_succ 1) .standard) "click" 0) ⟨0, 16⟩

theorem acts_onButton : onButton.acts listenToClick = [⟨⟨1⟩, "click", .new (7, 8)⟩] := by
  let m : Machine (Document ListenerId) NodeId Nat Unit :=
    onButton.toMachine.withSlots [some ⟨1⟩]
  have hrange : Machine.executionsRange (host id) listenToClick false ⟨0, 16⟩ m
      = [(m, .newListener 0 7 8)] :=
    Machine.executionsFrom_of_last (Instr.read_encode (.newListener 0 7 8) 0 []) rfl m
  have hall : onButton.executions (host id) listenToClick = [(m, .newListener 0 7 8)] := by
    have hpush : Machine.onStack (Stack.push ((host id).rootSeed onButton.doc onButton.root))
        onButton.toMachine = .ok () m := rfl
    have hactive : onButton.lifecycle = .active := rfl
    rw [executions, hactive, hpush]
    show Machine.executionsAll (host id) listenToClick false [⟨0, 16⟩] m = _
    rw [Machine.executionsAll_singleton, hrange]
  rw [acts, hall]
  rfl

/-- Until there is a trampoline the event fails, and then it is delivered with its handles. -/
theorem click_delivered :
    Recorded clickable (Step.after (Ledger.actAll (onButton.acts listenToClick)) .empty) none ∧
      clickable.doc.Known ⟨1⟩ ∧
      Document.dispatch clickable.doc clickable.listeners.deliver ⟨1⟩ "click" []
        = .error .noTrampoline [] ∧
      ∀ s', installTrampoline () clickable = .ok () s' →
        Document.dispatch s'.doc s'.listeners.deliver ⟨1⟩ "click" []
          = .ok 1 [⟨(), ⟨"click", ⟨1⟩⟩, (7, 8)⟩] := by
  have hs : Recorded clickable _ none := onButton_recorded.apply listenToClick
  have hknown : clickable.doc.Known ⟨1⟩ := by
    have hsettled := onButton_recorded.reached.settled
    obtain ⟨-, hext⟩ := (leadsTo_of_apply hsettled listenToClick).wellFormed_extends
      hsettled.reachable.wellFormed
    exact Nat.lt_of_lt_of_le Nat.one_lt_two hext.size_le
  have hM : Step.after (Ledger.actAll (onButton.acts listenToClick)) .empty ⟨1⟩ "click"
      = some (7, 8) := by
    rw [acts_onButton]
    rfl
  refine ⟨hs, hknown, ?_, fun s' hs' => ?_⟩
  · rw [(dispatch_of_recorded hs).1 ⟨1⟩ "click" [] hknown]
    simp only [Ledger.answer, hM]
  · have hinstalled := hs.installTrampoline ()
    cases ha : clickable.lifecycle with
    | unmounted =>
      rw [installTrampoline, Step.bind_error (ensureActive_of_unmounted ha)] at hs'
      cases hs'
    | active =>
      rw [ha, if_pos rfl, Step.after, hs'] at hinstalled
      rw [installTrampoline, Step.bind_ok (ensureActive_of_active ha)] at hs'
      cases hs'
      rw [(dispatch_of_recorded hinstalled).1 ⟨1⟩ "click" [] hknown]
      simp only [Ledger.answer, hM]
      rfl

end Session

end TreeEdit
