import TreeEdit.Machine.Exec
import TreeEdit.Proofs.Steps

/-!
# How the steps of a machine end

The parts that instructions are made of, for a machine on any host. What only looks something up or
moves slots about leaves the scene alone, and when it fails the error is the machine's own; what
looks something up fails only for not finding it. Only a call changes the document, and only a call
fails with an error of the document.
-/

namespace TreeEdit

/-- The error is not one of the document. -/
def Error.Own (e : Error) : Prop :=
  ∀ r, e ≠ .host r

variable {δ ν β τ α : Type} {H : Host δ ν β} {k : Reply}

/-- The error says that something is not there, or not as it should be. -/
def Error.OfLookup : Error → Prop
  | .fault _ | .missingString _ | .stackUnderflow _ | .absentNode _ | .missingListener _ => True
  | _ => False

theorem Error.OfLookup.own {e : Error} (h : e.OfLookup) : e.Own := by
  rintro r rfl
  exact h

theorem Error.ofLookup_of_mapError {x : Except Fault α} {e : Error}
    (h : x.mapError Error.fault = .error e) : e.OfLookup := by
  cases x with
  | ok a => cases h
  | error f =>
    cases h
    trivial

theorem StringTable.error_of_get {t : StringTable} {id : UInt32} {e : Error}
    (h : t.get id = .error e) : e = .missingString id := by
  rw [get] at h
  split at h
  · cases h
  · cases h
    rfl

namespace Scene

variable {s : Scene δ ν β τ}

theorem ends_call {c : HostCall ν β k} {Q : k.Of ν β → Scene δ ν β τ → Prop}
    {E : Error → Scene δ ν β τ → Prop} :
    Step.Ends (call H c) s Q E ↔
      Step.Ends (H.perform c) s.doc (fun a d => Q a { s with doc := d })
        fun e d => E (.host e) { s with doc := d } := by
  unfold Step.Ends call
  cases H.perform c s.doc <;> rfl

theorem ends_note {notice : Notice} {Q : Unit → Scene δ ν β τ → Prop}
    {E : Error → Scene δ ν β τ → Prop} :
    Step.Ends (note notice) s Q E ↔ Q () { s with journal := s.journal.push notice } := Iff.rfl

theorem ends_modifyListeners {f : Registry ν β τ → Registry ν β τ}
    {Q : Unit → Scene δ ν β τ → Prop} {E : Error → Scene δ ν β τ → Prop} :
    Step.Ends (modifyListeners f) s Q E ↔ Q () { s with listeners := f s.listeners } := Iff.rfl

theorem after_call (c : HostCall ν β k) :
    Step.after (call H c) s = { s with doc := Step.after (H.perform c) s.doc } := by
  unfold Step.after call
  cases H.perform c s.doc <;> rfl

/-! ## What attaching and detaching are made of -/

/-- Takes the listener off that is in the way, if there is one. -/
def giveWay (H : Host δ ν β) (key : NodeKey) (eventType : String) :
    Option (Registry.Entry ν β) → Act δ ν β τ Unit
  | some entry => do
    note (.replaced key eventType)
    release H key eventType entry
  | none => pure ()

/-- Makes a listener on top of the registry `r`, and has it bound before it is entered. -/
def enlist (H : Host δ ν β) (key : NodeKey) (node : ν) (eventType : String)
    (handles : UInt32 × UInt32) (r : Registry ν β τ) : Act δ ν β τ Unit := do
  let (id, listeners) := r.make (.fresh eventType key handles)
  modifyListeners fun _ => listeners
  let binding ← call H (.listen node eventType id)
  modifyListeners (·.enter key eventType ⟨id, node, binding⟩)

theorem attach_eq (node : ν) (eventType : String) (handles : UInt32 × UInt32) :
    (attach H node eventType handles : Act δ ν β τ Unit) = (do
      let s ← get
      giveWay H (H.key s.doc node) eventType
        (s.listeners.entries.get? (H.key s.doc node, eventType))
      let s' ← get
      enlist H (H.key s.doc node) node eventType handles s'.listeners) := by
  funext s
  rw [attach, Step.get_bind, Step.get_bind, Step.get_bind]
  cases s.listeners.entries.get? (H.key s.doc node, eventType) with
  | none => rfl
  | some entry => rfl

/-- Takes the listener off that was looked for, if it was found. -/
def dismiss (H : Host δ ν β) (key : NodeKey) (eventType : String) :
    Option (Registry.Entry ν β) → Act δ ν β τ Unit
  | some entry => release H key eventType entry
  | none => throw (.missingListener eventType)

theorem detach_eq (node : ν) (eventType : String) :
    (detach H node eventType : Act δ ν β τ Unit) = (do
      let s ← get
      dismiss H (H.key s.doc node) eventType
        (s.listeners.entries.get? (H.key s.doc node, eventType))) := by
  funext s
  rw [detach, Step.get_bind, Step.get_bind, Step.get_bind]
  cases s.listeners.entries.get? (H.key s.doc node, eventType) with
  | none => rfl
  | some entry => rfl

end Scene

namespace Machine

variable {m : Machine δ ν β τ} {E : Error → Machine δ ν β τ → Prop}

theorem ends_onScene {x : Scene.Act δ ν β τ α} {Q : α → Machine δ ν β τ → Prop} :
    Step.Ends (onScene x) m Q E ↔
      Step.Ends x m.toScene (fun a s => Q a { m with toScene := s })
        fun e s => E e { m with toScene := s } :=
  Step.ends_onPart

theorem ends_call {c : HostCall ν β k} {Q : k.Of ν β → Machine δ ν β τ → Prop} :
    Step.Ends (call H c) m Q E ↔
      Step.Ends (H.perform c) m.doc (fun a d => Q a { m with doc := d })
        fun e d => E (.host e) { m with doc := d } := by
  rw [call, ends_onScene, Scene.ends_call]

theorem call_of_ok {c : HostCall ν β k} {a : k.Of ν β} {d : δ}
    (h : H.perform c m.doc = .ok a d) : call H c m = .ok a { m with doc := d } := by
  have hscene : Scene.call H c m.toScene = .ok a { m.toScene with doc := d } := by
    rw [Scene.call, h]
  rw [call, onScene, Step.onPart_ok hscene]

/-! ## Looking things up -/

theorem ends_string {id : UInt32} {Q : String → Machine δ ν β τ → Prop}
    (hQ : ∀ t, m.strings.get id = .ok t → Q t m) (hE : ∀ e, e.OfLookup → E e m) :
    Step.Ends (string id) m Q E := by
  show Step.Ends (get >>= fun m' => Step.ofExcept (m'.strings.get id)) m Q E
  rw [Step.ends_bind, Step.ends_get, Step.ends_ofExcept]
  refine ⟨hQ, fun e he => hE e ?_⟩
  obtain rfl := StringTable.error_of_get he
  trivial

theorem ends_textAt {mem : Binary.Bytes} {ptr len : UInt32} {Q : String → Machine δ ν β τ → Prop}
    (hQ : ∀ t, Binary.text mem ptr len = .ok t → Q t m) (hE : ∀ e, e.OfLookup → E e m) :
    Step.Ends (textAt mem ptr len) m Q E := by
  rw [textAt, Step.ends_ofExcept]
  refine ⟨fun t ht => hQ t ?_, fun e he => hE e (Error.ofLookup_of_mapError he)⟩
  cases h : Binary.text mem ptr len with
  | ok t' =>
    rw [h] at ht
    exact congrArg _ (Except.ok.inj ht)
  | error f =>
    rw [h] at ht
    cases ht

/-! ## Slots -/

/-- The machine with other slots on its stack. -/
def withSlots (m : Machine δ ν β τ) (slots : List (Option ν)) : Machine δ ν β τ :=
  { m with stack := { m.stack with slots } }

@[simp] theorem slots_withSlots (slots : List (Option ν)) :
    (m.withSlots slots).stack.slots = slots := rfl

theorem ends_topNode {op : Opcode} {Q : ν → Machine δ ν β τ → Prop}
    (hQ : ∀ n st, m.stack.slots = some n :: st → Q n m) (hE : ∀ e, e.OfLookup → E e m) :
    Step.Ends (onStack (Stack.topNode op)) m Q E := by
  obtain ⟨s, ⟨slots, limit⟩, strings⟩ := m
  rw [onStack, Step.ends_onPart]
  match slots with
  | some n :: st => exact hQ n st rfl
  | none :: st => exact hE _ trivial
  | [] => exact hE _ trivial

theorem ends_popNode {op : Opcode} {Q : ν → Machine δ ν β τ → Prop}
    (hQ : ∀ n st, m.stack.slots = some n :: st → Q n (m.withSlots st))
    (hE : ∀ e stack, e.OfLookup → E e { m with stack }) :
    Step.Ends (onStack (Stack.popNode op)) m Q E := by
  obtain ⟨s, ⟨slots, limit⟩, strings⟩ := m
  rw [onStack, Step.ends_onPart]
  match slots with
  | some n :: st => exact hQ n st rfl
  | none :: st => exact hE _ _ trivial
  | [] => exact hE _ _ trivial

theorem ends_pop {op : Opcode} {Q : Option ν → Machine δ ν β τ → Prop}
    (hQ : ∀ slot st, m.stack.slots = slot :: st → Q slot (m.withSlots st))
    (hE : ∀ e, e.OfLookup → E e m) : Step.Ends (onStack (Stack.pop op)) m Q E := by
  obtain ⟨s, ⟨slots, limit⟩, strings⟩ := m
  rw [onStack, Step.ends_onPart]
  match slots with
  | slot :: st => exact hQ slot st rfl
  | [] => exact hE _ trivial

theorem topNode_of_slots {n : ν} {st : List (Option ν)} (h : m.stack.slots = some n :: st)
    (op : Opcode) : onStack (Stack.topNode op) m = .ok n m := by
  obtain ⟨s, ⟨slots, limit⟩, strings⟩ := m
  cases h
  rfl

theorem popNode_of_slots {n : ν} {st : List (Option ν)} (h : m.stack.slots = some n :: st)
    (op : Opcode) : onStack (Stack.popNode op) m = .ok n (m.withSlots st) := by
  obtain ⟨s, ⟨slots, limit⟩, strings⟩ := m
  cases h
  rfl

theorem push_of_no_limit (h : m.stack.limit = none) (slot : Option ν) :
    onStack (Stack.push slot) m = .ok () (m.withSlots (slot :: m.stack.slots)) := by
  refine Step.onPart_ok (Stack.push_of_room (fun limit hl => ?_) slot)
  cases h.symm.trans hl

/-- A push finds room, or the stack is full and nothing happens. -/
theorem push_cases (slot : Option ν) (m : Machine δ ν β τ) :
    onStack (Stack.push slot) m = .ok () (m.withSlots (slot :: m.stack.slots)) ∨
      ∃ limit, onStack (Stack.push slot) m = .error (.stackOverflow limit) m := by
  by_cases hroom : ∀ limit, m.stack.limit = some limit → m.stack.depth < limit
  · exact .inl (Step.onPart_ok (Stack.push_of_room hroom slot))
  · simp only [Classical.not_forall, Nat.not_lt] at hroom
    obtain ⟨limit, hl, hd⟩ := hroom
    exact .inr ⟨limit, Step.onPart_error (Stack.push_of_full hl hd slot)⟩

theorem ends_push {slot : Option ν} {Q : Unit → Machine δ ν β τ → Prop}
    (hQ : Q () (m.withSlots (slot :: m.stack.slots)))
    (hE : ∀ e, e.Own → E e m) : Step.Ends (onStack (Stack.push slot)) m Q E := by
  have hfull (limit : Nat) : (Error.stackOverflow limit).Own := nofun
  rcases push_cases slot m with h | ⟨limit, h⟩
  · rw [Step.Ends, h]
    exact hQ
  · rw [Step.Ends, h]
    exact hE _ (hfull limit)

end Machine

end TreeEdit
