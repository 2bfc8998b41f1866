import TreeEdit.Proofs.Listener.Upkeep
import TreeEdit.Proofs.Machine.Executions
import TreeEdit.Proofs.Machine.Placement
import TreeEdit.Proofs.Machine.Quiet
import TreeEdit.Proofs.Machine.Run

/-!
# The ledger of listeners

What the instructions of a run say about listeners is kept in a `Ledger`: a table of handles by node
and type of event, which knows nothing of registries, handlers and bindings. An instruction acts on
the ledger if it is executed with a node on top of the stack and a known string id (`Machine.act?`).

The registry and the handlers of a document are `Booked` as a ledger says. Every instruction keeps
them so (`exec_books`), and so does every run, however it ends (`runAll_books`). There is nothing in
a run that a document could refuse about listeners, as all nodes on the stack are there.
-/

namespace TreeEdit

open Document (host)

/-! ## Ledgers -/

/-- What is to be done about the listener of a node for a type of event. -/
structure ListenerAct where
  node : NodeId
  eventType : String
  booking : Booking
  deriving DecidableEq, Repr

/-- The handles that come back with an event, by node and type. -/
def Ledger := NodeId → String → Option (UInt32 × UInt32)

namespace Ledger

/-- The ledger without entries. -/
def empty : Ledger := fun _ _ => none

/-- The ledger with another entry, or none, in one place. -/
def enter (M : Ledger) (n : NodeId) (t : String) (handles : Option (UInt32 × UInt32)) : Ledger :=
  fun n' t' => if (n, t) = (n', t') then handles else M n' t'

/-- Does one act. What is updated or removed must be there. -/
def act (a : ListenerAct) : EStateM Error Ledger Unit := fun M =>
  match a.booking, M a.node a.eventType with
  | .new handles, _ => .ok () (M.enter a.node a.eventType (some handles))
  | .update handles, some _ => .ok () (M.enter a.node a.eventType (some handles))
  | .remove, some _ => .ok () (M.enter a.node a.eventType none)
  | .update _, none => .error (.missingListener a.eventType) M
  | .remove, none => .error (.missingListener a.eventType) M

/-- Does acts one after another, up to the first that fails. -/
def actAll : List ListenerAct → EStateM Error Ledger Unit
  | [] => return
  | a :: acts => do
    act a
    actAll acts

theorem actAll_append (acts acts' : List ListenerAct) :
    actAll (acts ++ acts') = (do actAll acts; actAll acts') := by
  induction acts with
  | nil => rfl
  | cons a acts ih =>
    rw [List.cons_append, actAll, actAll, ih, bind_assoc]

theorem actAll_singleton (a : ListenerAct) : actAll [a] = act a := by
  funext M
  show (act a >>= fun _ => pure ()) M = act a M
  cases h : act a M with
  | ok u M' => exact Step.bind_ok h
  | error e M' => exact Step.bind_error h

end Ledger

namespace Machine

variable {δ β τ : Type}

/-- What an instruction does about listeners if it is executed on a machine. -/
def act? (m : Machine δ NodeId β τ) (i : Instr) : Option ListenerAct :=
  match i.booking?, m.stack.slots with
  | some (event, booking), some node :: _ =>
    match m.strings.get event with
    | .ok eventType => some ⟨node, eventType, booking⟩
    | .error _ => none
  | _, _ => none

/-- What the instructions that were executed did about listeners. -/
def acts (executions : List (Machine δ NodeId β τ × Instr)) : List ListenerAct :=
  executions.flatMap fun x => (x.1.act? x.2).toList

end Machine

/-! ## Scenes that are as a ledger says -/

variable {τ α : Type} {M : Ledger} {T : Option τ}

/-- The listeners of a scene are those in the ledger, and their trampoline is `T`. -/
structure Booked (M : Ledger) (T : Option τ) (c : Scene (Document ListenerId) NodeId Nat τ) :
    Prop where
  inStep : c.InStep id False
  handles : ∀ n t, c.listeners.handles? n.key t = M n t
  trampoline : c.listeners.trampoline = T

/-- The step does with the listeners of a machine what some acts do with the ledger. If it fails for
want of a listener, so do the acts. -/
def Books (M : Ledger) (T : Option τ) (acts : List ListenerAct)
    (x : Machine.Act (Document ListenerId) NodeId Nat τ α)
    (m : Machine (Document ListenerId) NodeId Nat τ) : Prop :=
  Step.Ends x m (fun _ m' => ∃ M', Ledger.actAll acts M = .ok () M' ∧ Booked M' T m'.toScene)
    fun e m' => ∃ M', Booked M' T m'.toScene ∧
      (Ledger.actAll acts M = .error e M' ∨ Ledger.actAll acts M = .ok () M' ∧ e.NotMissing)

namespace Booked

variable {c c' : Scene (Document ListenerId) NodeId Nat τ} {n : NodeId} {t : String}

theorem of_same (h : Booked M T c) (hl : c'.listeners = c.listeners)
    (hd : c'.doc.attendance = c.doc.attendance) : Booked M T c' := by
  obtain ⟨hhandlers, hbinding⟩ := Prod.mk.inj hd
  refine ⟨?_, fun n t => ?_, ?_⟩
  · unfold Scene.InStep
    rw [hl]
    exact h.inStep.of_handlers hhandlers hbinding.ge
  · rw [hl]
    exact h.handles n t
  · rw [hl]
    exact h.trampoline

/-- The entry in one place is another one after a step that keeps registry and handlers in step. -/
theorem entered (h : Booked M T c) (hkeeps : c.Keeps id False c')
    (htrampoline : c'.listeners.trampoline = c.listeners.trampoline)
    {handles : Option (UInt32 × UInt32)}
    (hhandles : ∀ key' t', c'.listeners.handles? key' t'
      = if (n.key, t) = (key', t') then handles else c.listeners.handles? key' t') :
    Booked (M.enter n t handles) T c' := by
  refine ⟨hkeeps.attended, fun n' t' => ?_, htrampoline.trans h.trampoline⟩
  rw [hhandles, Ledger.enter, h.handles]
  by_cases hp : (n, t) = (n', t')
  · cases hp
    rw [if_pos rfl, if_pos rfl]
  · rw [if_neg hp, if_neg]
    intro hk
    obtain ⟨hkey, rfl⟩ := Prod.mk.inj hk
    exact hp (by rw [NodeId.key_injective hkey])

end Booked

namespace Scene

variable {δ β : Type} {c : Scene (Document ListenerId) NodeId Nat τ} {n : NodeId}

/-- Does what a booking says about the listener of a node for a type of event. -/
def book (H : Host δ NodeId β) (n : NodeId) (t : String) : Booking → Act δ NodeId β τ Unit
  | .new handles => attach H n t handles
  | .update handles => do
    let key := H.key (← get).doc n
    update key t handles
  | .remove => detach H n t

/-- At a node that is there, the registry does as the ledger does. -/
theorem book_ends (h : Booked M T c) (hn : c.doc.Known n) (t : String) (booking : Booking) :
    Step.Ends (book (host id) n t booking) c
      (fun _ c' => ∃ M', Ledger.act ⟨n, t, booking⟩ M = .ok () M' ∧ Booked M' T c')
      fun e c' => c' = c ∧ Ledger.act ⟨n, t, booking⟩ M = .error e M := by
  have hH := Document.binds_host
  cases booking with
  | new handles =>
    refine (attach_ends hH h.inStep n t handles).mono (fun _ c' h' => ?_) fun e c' h' => ?_
    · exact ⟨_, rfl, h.entered h'.1 h'.2.1 h'.2.2⟩
    · exact (h'.2.2.elim id fun hunknown => hunknown hn).elim
  | update handles =>
    rw [book, Step.ends_bind, Step.ends_get]
    refine (update_ends h.inStep n.key t handles).mono (fun _ c' h' => ?_) fun e c' h' => ?_
    · obtain ⟨hkeeps, htrampoline, hsome, hhandles⟩ := h'
      rw [h.handles] at hsome
      obtain ⟨old, hold⟩ := Option.ne_none_iff_exists'.mp hsome
      refine ⟨M.enter n t (some handles), ?_, h.entered hkeeps htrampoline hhandles⟩
      simp only [Ledger.act, hold]
    · obtain ⟨rfl, rfl, hnone⟩ := h'
      rw [h.handles] at hnone
      refine ⟨rfl, ?_⟩
      simp only [Ledger.act, hnone]
  | remove =>
    refine (detach_ends hH h.inStep n t).mono (fun _ c' h' => ?_) fun e c' h' => ?_
    · obtain ⟨hkeeps, htrampoline, hsome, hhandles⟩ := h'
      rw [h.handles] at hsome
      obtain ⟨old, hold⟩ := Option.ne_none_iff_exists'.mp hsome
      refine ⟨M.enter n t none, ?_, h.entered hkeeps htrampoline hhandles⟩
      simp only [Ledger.act, hold]
    · obtain ⟨rfl, rfl, hnone⟩ := h'.resolve_right And.left
      rw [h.handles] at hnone
      refine ⟨rfl, ?_⟩
      simp only [Ledger.act, hnone]

end Scene

namespace Machine

variable {δ β : Type} {mem : Binary.Bytes} {i : Instr}

/-! ## Instructions -/

theorem topNode_of_absent {ν : Type} {m : Machine δ ν β τ}
    (h : ∀ n st, m.stack.slots ≠ some n :: st) (op : Opcode) :
    ∃ e, onStack (Stack.topNode op) m = .error e m ∧ e.NotMissing := by
  obtain ⟨s, ⟨slots, limit⟩, strings⟩ := m
  match slots with
  | some n :: st => exact absurd rfl (h n st)
  | none :: st => exact ⟨.absentNode op, rfl, nofun⟩
  | [] => exact ⟨.stackUnderflow op, rfl, nofun⟩

theorem string_eq {ν : Type} (m : Machine δ ν β τ) (id : UInt32) :
    string id m = Step.ofExcept (m.strings.get id) m := rfl

theorem notMissing_of_get {t : StringTable} {id : UInt32} {e : Error} (h : t.get id = .error e) :
    e.NotMissing := by
  obtain rfl := StringTable.error_of_get h
  exact nofun

/-- Executing an instruction about listeners, in the order in which it looks for what it needs. -/
theorem exec_eq_book {H : Host δ NodeId β} {event : UInt32} {booking : Booking}
    (hi : i.booking? = some (event, booking)) :
    (exec H mem i : Act δ NodeId β τ Unit) = (do
      let node ← onStack (Stack.topNode i.opcode)
      let eventType ← string event
      onScene (Scene.book H node eventType booking)) := by
  cases i with
  | newListener | removeListener =>
    cases hi
    rfl
  | updateListener event a b =>
    cases hi
    funext m
    refine Step.bind_congr fun node m' _ => ?_
    rw [Step.get_bind]
    refine Step.bind_congr fun eventType m'' hs => ?_
    rw [string_eq] at hs
    cases hget : m'.strings.get event with
    | ok t =>
      rw [hget] at hs
      cases hs
      rfl
    | error e =>
      rw [hget] at hs
      cases hs
  | _ => cases hi

/-- An instruction about listeners finds its node and its type of event and does its act, or it
fails before it has changed anything. -/
theorem exec_cases {H : Host δ NodeId β} {event : UInt32} {booking : Booking}
    (hi : i.booking? = some (event, booking)) (mem : Binary.Bytes) (m : Machine δ NodeId β τ) :
    (∃ n t st, m.stack.slots = some n :: st ∧ m.act? i = some ⟨n, t, booking⟩ ∧
      exec H mem i m = onScene (Scene.book H n t booking) m) ∨
    m.act? i = none ∧ ∃ e, exec H mem i m = .error e m ∧ e.NotMissing := by
  rw [exec_eq_book hi]
  by_cases hslots : ∃ n st, m.stack.slots = some n :: st
  · obtain ⟨n, st, hst⟩ := hslots
    have htop := topNode_of_slots hst i.opcode
    cases hget : m.strings.get event with
    | ok t =>
      refine .inl ⟨n, t, st, hst, ?_, ?_⟩
      · simp only [act?, hi, hst, hget]
      · rw [Step.bind_ok htop]
        refine Step.bind_ok ?_
        rw [string_eq, hget]
        rfl
    | error e =>
      refine .inr ⟨?_, e, ?_, notMissing_of_get hget⟩
      · simp only [act?, hi, hst, hget]
      · rw [Step.bind_ok htop]
        refine Step.bind_error ?_
        rw [string_eq, hget]
        rfl
  · have habsent : ∀ n st, m.stack.slots ≠ some n :: st := fun n st h => hslots ⟨n, st, h⟩
    obtain ⟨e, he, hmissing⟩ := topNode_of_absent habsent i.opcode
    refine .inr ⟨?_, e, Step.bind_error he, hmissing⟩
    rw [act?]
    split
    · rename_i node st _ hst
      exact absurd hst (habsent node st)
    · rfl

variable {m : Machine (Document ListenerId) NodeId Nat τ}

/-- A step that fails before it has changed anything does nothing with the ledger. -/
theorem books_of_error {x : Act (Document ListenerId) NodeId Nat τ α} (h : Booked M T m.toScene)
    {e : Error} (he : x m = .error e m) (hmissing : e.NotMissing) : Books M T [] x m := by
  rw [Books, Step.Ends, he]
  exact ⟨M, h, .inr ⟨rfl, hmissing⟩⟩

/-- An instruction does about listeners what its act does. -/
theorem exec_books (h : Booked M T m.toScene)
    (hknown : ∀ n, some n ∈ m.stack.slots → m.doc.Known n) (mem : Binary.Bytes) (i : Instr) :
    Books M T (m.act? i).toList (exec (host id) mem i) m := by
  cases hi : i.booking? with
  | none =>
    have hacts : m.act? i = none := by
      simp only [act?, hi]
    rw [hacts]
    refine (exec_quiet hi m).mono (fun _ m' h' => ?_) fun e m' h' => ?_
    · obtain ⟨hl, hd⟩ := Prod.mk.inj h'
      exact ⟨M, rfl, h.of_same hl hd⟩
    · obtain ⟨hl, hd⟩ := Prod.mk.inj h'.1
      exact ⟨M, h.of_same hl hd, .inr ⟨rfl, h'.2⟩⟩
  | some p =>
    rcases exec_cases (H := host id) hi mem m with
      ⟨n, t, st, hst, hact, hexec⟩ | ⟨hact, e, hexec, hmissing⟩
    · have hn : m.doc.Known n := hknown n (by rw [hst]; exact List.mem_cons_self)
      rw [hact, Option.toList_some, Books, Ledger.actAll_singleton, Step.Ends, hexec]
      show Step.Ends (onScene (Scene.book (host id) n t p.2)) m _ _
      rw [ends_onScene]
      refine (Scene.book_ends h hn t p.2).mono (fun _ _ h' => h') fun e c' h' => ?_
      obtain ⟨rfl, hfail⟩ := h'
      exact ⟨M, h, .inl hfail⟩
    · rw [hact]
      exact books_of_error h hexec hmissing

/-! ## Runs -/

/-- The acts of two steps one after the other. If the first fails, there are none of the second. -/
theorem Books.bind {γ : Type} {x : Act (Document ListenerId) NodeId Nat τ α}
    {f : α → Act (Document ListenerId) NodeId Nat τ γ} {first rest : List ListenerAct}
    (hx : Books M T first x m)
    (hok : ∀ a m' M', x m = .ok a m' → Booked M' T m'.toScene → Books M' T rest (f a) m')
    (herror : ∀ e m', x m = .error e m' → rest = []) : Books M T (first ++ rest) (x >>= f) m := by
  rw [Books, Step.ends_bind, Ledger.actAll_append]
  obtain ⟨hx₁, hx₂⟩ := Step.ends_iff.mp hx
  refine Step.ends_iff.mpr ⟨fun a m' ha => ?_, fun e m' he => ?_⟩
  · obtain ⟨M', hM', hm'⟩ := hx₁ a m' ha
    rw [Step.bind_ok hM']
    exact hok a m' M' ha hm'
  · obtain ⟨M', hm', hfail⟩ := hx₂ e m' he
    refine ⟨M', hm', hfail.imp (fun h => ?_) fun h => ⟨?_, h.2⟩⟩
    · exact Step.bind_error h
    · rw [herror e m' he, Step.bind_ok h.1]
      rfl

variable {s : Site ListenerId}

theorem known_of_stands (hs : Placed s) {c : Scene (Document ListenerId) NodeId Nat τ}
    {slots : List (Option NodeId)} (h : Stands id s c slots) {n : NodeId}
    (hn : some n ∈ slots) : c.doc.Known n :=
  (placed_of_moves hs h.moves).known n hn

/-- From a place where all slots are in order, a run does about listeners what the instructions do
that it executes. -/
theorem runFrom_books (hs : Placed s) (traced : Bool) (c : Binary.Cursor) (executed : Nat)
    (hstands : Stands id s m.toScene m.stack.slots) (h : Booked M T m.toScene) :
    Books M T (acts (executionsFrom (host id) mem traced c m))
      (runFrom (host id) mem traced c executed) m := by
  induction c using cursor_induction generalizing executed m M with
  | ended c hend =>
    rw [executionsFrom_of_end hend, runFrom_of_end hend]
    exact ⟨M, rfl, h⟩
  | fault c f c' hend hr =>
    rw [executionsFrom_of_fault hr, runFrom_of_fault hend hr]
    exact books_of_error h rfl nofun
  | past c i c' hr ih =>
    rw [executionsFrom_of_read hr, runFrom_of_read hr, acts, List.flatMap_cons]
    have h₀ : Booked M T (m.noted traced c.offset i).toScene :=
      h.of_same (listeners_noted m c.offset) (congrArg Document.attendance (doc_noted m c.offset))
    have hstands₀ := noted_stands hstands traced c.offset i
    have hexec := exec_books h₀ (fun n hn => known_of_stands hs hstands₀ hn) mem i
    have hgoes := Step.ends_iff.mp (exec_goes hstands₀ mem i)
    refine Books.bind ?_ (fun _ m' M' ha hm' => ?_) fun e m' he => ?_
    · rw [Books, Step.Ends, attempt_eq]
      exact hexec
    · rw [attempt_eq] at ha
      rw [ha]
      exact ih (executed + 1) (hgoes.1 _ _ ha) hm'
    · rw [attempt_eq] at he
      rw [he]
      rfl

theorem runRange_books (hs : Placed s) (traced : Bool) (span : Span)
    (hstands : Stands id s m.toScene m.stack.slots) (h : Booked M T m.toScene) :
    Books M T (acts (executionsRange (host id) mem traced span m))
      (runRange (host id) mem traced span) m := by
  have hfault (f : Fault) : (Error.fault f).NotMissing := nofun
  rw [executionsRange, runRange]
  cases hc : Binary.Cursor.ofRange mem span.start span.len with
  | ok c => exact runFrom_books hs traced c 0 hstands h
  | error f => exact books_of_error h rfl (hfault f)

theorem runAll_books (hs : Placed s) (traced : Bool) (spans : List Span)
    (hstands : Stands id s m.toScene m.stack.slots) (h : Booked M T m.toScene) :
    Books M T (acts (executionsAll (host id) mem traced spans m))
      (runAll (host id) mem traced spans) m := by
  induction spans generalizing m M with
  | nil => exact ⟨M, rfl, h⟩
  | cons span spans ih =>
    rw [executionsAll, runAll, acts, List.flatMap_append]
    have hgoes := Step.ends_iff.mp (runRange_goes mem traced span hstands)
    refine Books.bind (runRange_books hs traced span hstands h) (fun first m' M' ha hm' => ?_)
      fun e m' he => ?_
    · rw [ha, Books, Step.ends_bind]
      exact ih (hgoes.1 _ _ ha) hm'
    · rw [he]
      rfl

end Machine

end TreeEdit
