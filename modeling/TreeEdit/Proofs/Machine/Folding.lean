import TreeEdit.Proofs.Instr.Legible
import TreeEdit.Proofs.Listener.Leading
import TreeEdit.Proofs.Machine.Leading

/-!
# A run is a fold over what was decoded

The decoder reads a range as a whole and has no effects; a run reads an instruction only when it
comes to it. Both come to the same instructions: a run attempts what can be read of its ranges, in
order, and fails with the fault behind that, if the attempts have not failed before (`runRange_eq`,
`runAll_eq`). Attempts that fail leave what the ones before the failing one did, and what that one
did up to its failure (`attemptAll_ends`).
-/

namespace TreeEdit.Machine

open Binary
open Instr (Furthest decodeRange decoded laidOut legible window)

variable {δ ν β τ : Type} {H : Host δ ν β} {mem : Bytes} {traced : Bool}

/-! ## The instructions of a queue -/

/-- What can be read of a range, and the fault behind it. Of a range that is refused, that is
nothing. -/
def reading (mem : Bytes) (span : Span) : List (Nat × Instr) × Option Fault :=
  match Cursor.ofRange mem span.start span.len with
  | .ok c => legible c
  | .error f => ([], some f)

/-- What can be read of a queue of ranges, one range after another, up to the first fault. -/
def script (mem : Bytes) : List Span → List (Nat × Instr) × Option Fault
  | [] => ([], none)
  | span :: spans =>
    match reading mem span with
    | (ops, some f) => (ops, some f)
    | (ops, none) => (ops ++ (script mem spans).1, (script mem spans).2)

/-- The reading of a range agrees with the decoder. If the range is accepted, the instructions that
were read are its longest part that is made of instructions. -/
structure Reads (mem : Bytes) (span : Span) (r : List (Nat × Instr) × Option Fault) : Prop where
  decoded : decodeRange mem span.start span.len = decoded r
  refused : ∀ f, checkRange mem.length span.start span.len = .error f → r = ([], some f)
  furthest : ∀ p, checkRange mem.length span.start span.len = .ok p →
    (∃ rest, Furthest (window mem span.start span.len) (r.1.map Prod.snd) rest) ∧
      r.1 = laidOut span.start.toNat (r.1.map Prod.snd)

theorem reads_reading (mem : Bytes) (span : Span) : Reads mem span (reading mem span) := by
  constructor
  · rw [decodeRange, reading]
    cases Cursor.ofRange mem span.start span.len with
    | ok c => exact Instr.readAll_eq_legible c
    | error f => rfl
  · intro f hf
    rw [reading, Cursor.ofRange, hf]
    rfl
  · rintro ⟨first, last⟩ hp
    obtain ⟨hcursor, haligned⟩ := Instr.ofRange_of_checked hp
    rw [reading, hcursor]
    exact Instr.legible_furthest
      (c := ⟨span.start.toNat, window mem span.start span.len⟩) haligned

/-! ## Attempts -/

/-- Attempts instructions in order, each with its offset. -/
def attemptAll (H : Host δ ν β) (mem : Bytes) (traced : Bool) (ops : List (Nat × Instr)) :
    Act δ ν β τ Unit :=
  ops.forM fun op => attempt H mem traced op.1 op.2

/-- Answers the number of instructions executed, unless there is a fault. -/
def conclude (executed : Nat) : Option Fault → Act δ ν β τ Nat
  | none => return executed
  | some f => throw (.fault f)

/-- Attempts instructions in order, and then fails with the fault, if there is one. -/
def play (H : Host δ ν β) (mem : Bytes) (traced : Bool)
    (r : List (Nat × Instr) × Option Fault) : Act δ ν β τ Nat := do
  attemptAll H mem traced r.1
  conclude r.1.length r.2

theorem attemptAll_nil : (attemptAll H mem traced [] : Act δ ν β τ Unit) = pure () := rfl

theorem attemptAll_cons (op : Nat × Instr) (ops : List (Nat × Instr)) :
    (attemptAll H mem traced (op :: ops) : Act δ ν β τ Unit) =
      attempt H mem traced op.1 op.2 >>= fun _ => attemptAll H mem traced ops := rfl

theorem attemptAll_append (ops ops' : List (Nat × Instr)) :
    (attemptAll H mem traced (ops ++ ops') : Act δ ν β τ Unit) =
      attemptAll H mem traced ops >>= fun _ => attemptAll H mem traced ops' := by
  induction ops with
  | nil => rw [List.nil_append, attemptAll_nil, pure_bind]
  | cons op ops ih => rw [List.cons_append, attemptAll_cons, attemptAll_cons, ih, bind_assoc]

/-- To run what is left of a range is to attempt what can be read of it. -/
theorem runFrom_eq (c : Cursor) (executed : Nat) :
    (runFrom H mem traced c executed : Act δ ν β τ Nat) =
      attemptAll H mem traced (legible c).1 >>= fun _ =>
        conclude (executed + (legible c).1.length) (legible c).2 := by
  induction c using cursor_induction generalizing executed with
  | ended c hend =>
    rw [runFrom_of_end hend, Instr.legible_of_end (List.isEmpty_iff.mp hend)]
    rfl
  | fault c f c' hend hr =>
    rw [runFrom_of_fault hend hr, Instr.legible_of_fault (List.isEmpty_eq_false_iff.mp hend) hr]
    rfl
  | past c i c' hr ih =>
    have hne : c.rest ≠ [] := List.isEmpty_eq_false_iff.mp (atEnd_of_read hr)
    rw [runFrom_of_read hr, Instr.legible_of_read hne hr]
    dsimp only
    rw [attemptAll_cons, bind_assoc, List.length_cons]
    refine congrArg (attempt H mem traced c.offset i >>= ·) (funext fun _ => ?_)
    rw [ih, Nat.add_assoc, Nat.add_comm 1]

theorem runRange_eq (span : Span) :
    (runRange H mem traced span : Act δ ν β τ Nat) = play H mem traced (reading mem span) := by
  rw [runRange, reading]
  cases Cursor.ofRange mem span.start span.len with
  | ok c =>
    show runFrom H mem traced c 0 = _
    rw [runFrom_eq, Nat.zero_add]
    rfl
  | error f => rfl

/-- How a run of a range follows the decoder. If all of the range is decoded, the run attempts the
instructions and answers their number. A range that is refused is not touched. If the decoder comes
upon a fault later on, the run attempts the longest part before it that is made of instructions,
and fails with that fault. -/
structure Folds (τ : Type) (H : Host δ ν β) (mem : Bytes) (traced : Bool) (span : Span) : Prop where
  complete : ∀ ops, decodeRange mem span.start span.len = .ok ops →
    (runRange H mem traced span : Act δ ν β τ Nat) = (do
      attemptAll H mem traced ops
      return ops.length)
  refused : ∀ f, checkRange mem.length span.start span.len = .error f →
    (runRange H mem traced span : Act δ ν β τ Nat) = throw (.fault f)
  faulty : ∀ p f, checkRange mem.length span.start span.len = .ok p →
    decodeRange mem span.start span.len = .error f →
    ∃ is rest, Furthest (window mem span.start span.len) is rest ∧
      (runRange H mem traced span : Act δ ν β τ Nat) = (do
        attemptAll H mem traced (laidOut span.start.toNat is)
        throw (.fault f))

theorem runRange_folds (H : Host δ ν β) (mem : Bytes) (traced : Bool) (span : Span) :
    Folds τ H mem traced span := by
  obtain ⟨hdecoded, hrefused, hfurthest⟩ := reads_reading mem span
  constructor
  · intro ops hops
    rw [runRange_eq, Instr.decoded_eq_ok_iff.mp (hdecoded.symm.trans hops)]
    rfl
  · intro f hf
    rw [runRange_eq, hrefused f hf]
    rfl
  · intro p f hp hf
    obtain ⟨⟨rest, hrest⟩, hlaid⟩ := hfurthest p hp
    refine ⟨_, rest, hrest, ?_⟩
    rw [runRange_eq, ← hlaid]
    rw [hf] at hdecoded
    generalize reading mem span = r at hdecoded
    obtain ⟨ops', _ | f'⟩ := r
    · cases hdecoded
    · cases hdecoded
      rfl

theorem runAll_eq (spans : List Span) :
    (runAll H mem traced spans : Act δ ν β τ Nat) = play H mem traced (script mem spans) := by
  induction spans with
  | nil => rfl
  | cons span spans ih =>
    rw [runAll, runRange_eq, ih, script]
    obtain ⟨ops, fault⟩ := reading mem span
    cases fault with
    | some f =>
      simp only [play, bind_assoc]
      rfl
    | none =>
      obtain ⟨ops', fault'⟩ := script mem spans
      simp only [play, attemptAll_append, bind_assoc, conclude, pure_bind, List.length_append]
      cases fault' with
      | none => rfl
      | some f => rfl

/-! ## The string table -/

/-- The text that an instruction stores, with its string id, if it stores one. -/
def stored? (mem : Bytes) : Instr → Option (UInt32 × String)
  | .addString ptr len id => (text mem ptr len).toOption.map fun t => (id, t)
  | _ => none

/-- The texts that some instructions store, in order. -/
def storedBy (mem : Bytes) (ops : List (Nat × Instr)) : List (UInt32 × String) :=
  ops.filterMap fun op => stored? mem op.2

/-- Stores texts one after another. -/
def storeAll (t : StringTable) (texts : List (UInt32 × String)) : StringTable :=
  texts.foldl (fun t w => t.add w.2 w.1) t

/-- Of the texts stored under an id, the last one is found. -/
theorem get_storeAll (t : StringTable) (texts : List (UInt32 × String)) (id : UInt32) :
    (storeAll t texts).get id =
      match texts.reverse.find? fun w => w.1 = id with
      | some w => .ok w.2
      | none => t.get id := by
  induction texts generalizing t with
  | nil => rfl
  | cons w texts ih =>
    have hw : storeAll t (w :: texts) = storeAll (t.add w.2 w.1) texts := rfl
    rw [hw, ih, List.reverse_cons, List.find?_append]
    cases texts.reverse.find? fun w => w.1 = id with
    | some v => rfl
    | none =>
      rw [StringTable.get_add]
      by_cases hid : w.1 = id
      · rw [if_pos hid, List.find?_singleton, if_pos (decide_eq_true hid)]
        rfl
      · rw [if_neg hid, List.find?_singleton, if_neg (by simpa using hid)]
        rfl

theorem strings_parts : Parts (τ := τ) H fun m m' => m'.strings = m.strings := by
  have hscene {α : Type} (x : Scene.Act δ ν β τ α) :
      Step.Leads (fun m m' : Machine δ ν β τ => m'.strings = m.strings) (onScene x) :=
    Step.leads_onPart (S := fun _ _ => True) (Step.leads_iff.mpr fun _ => trivial)
      fun _ _ _ => rfl
  exact ⟨⟨fun _ => rfl, fun h h' => h'.trans h⟩, fun _ _ => rfl, fun _ _ => hscene _,
    fun _ _ _ => hscene _, fun _ _ _ => hscene _, fun _ _ => hscene _⟩

/-- An instruction that is executed stores its text, and one that fails stores none. -/
theorem exec_stores (i : Instr) (m : Machine δ ν β τ) :
    Step.Ends (exec H mem i) m (fun _ m' => m'.strings = storeAll m.strings (stored? mem i).toList)
      fun _ m' => m'.strings = m.strings := by
  cases i with
  | addString ptr len id =>
    rw [exec, Step.ends_bind]
    refine ends_textAt (fun t ht => ?_) fun _ _ => rfl
    rw [stored?, ht]
    exact rfl
  | _ => exact exec_leads strings_parts.deeds mem _ (by nofun) m

/-! ## The trace -/

/-- The attempts that a journal has noted. -/
def traces (j : Journal) : List Notice :=
  j.toList.filter fun notice => notice.urgency = .trace

/-- The notices of attempts at instructions, with the depth of the stack before each of them. -/
def attempts (H : Host δ ν β) (mem : Bytes) (traced : Bool) :
    List (Nat × Instr) → Machine δ ν β τ → List Notice
  | [], _ => []
  | op :: ops, m => .attempted op.1 op.2 m.stack.depth ::
      attempts H mem traced ops (Step.after (attempt H mem traced op.1 op.2) m)

theorem traces_push (j : Journal) (notice : Notice) :
    traces (j.push notice) = traces j ++ if notice.urgency = .trace then [notice] else [] := by
  rw [traces, Array.toList_push, List.filter_append, List.filter_singleton]
  by_cases h : notice.urgency = .trace
  · simp only [h, decide_true, if_true]
    rfl
  · simp only [h, decide_false, if_false]
    rfl

theorem traces_call {k : Reply} (c : HostCall ν β k) :
    Step.Leads (fun c c' : Scene δ ν β τ => traces c'.journal = traces c.journal)
      (Scene.call H c) := by
  rw [Step.leads_iff]
  intro s
  rw [Scene.after_call]

/-- What a scene does about listeners is no attempt: only a listener that gives way is noted. -/
theorem traces_chores :
    Scene.Chores (τ := τ) H fun c c' => traces c'.journal = traces c.journal := by
  refine ⟨⟨fun _ => rfl, fun h h' => h'.trans h⟩, fun _ _ => rfl, fun c key eventType => ?_,
    fun _ _ _ => traces_call _, fun _ _ _ => traces_call _⟩
  rw [traces_push, if_neg nofun, List.append_nil]

theorem traces_parts :
    Parts (τ := τ) H fun m m' => traces m'.journal = traces m.journal := by
  have hscene {α : Type} {x : Scene.Act δ ν β τ α}
      (hx : Step.Leads (fun c c' => traces c'.journal = traces c.journal) x) :
      Step.Leads (fun m m' : Machine δ ν β τ => traces m'.journal = traces m.journal)
        (onScene x) := Step.leads_onPart hx fun _ _ h => h
  have hchores := traces_chores (τ := τ) (H := H)
  exact ⟨⟨fun _ => rfl, fun h h' => h'.trans h⟩, fun _ _ => rfl,
    fun c _ => hscene (traces_call c), fun _ _ _ => hscene (hchores.attach _ _ _),
    fun _ _ _ => hscene (hchores.update _ _ _), fun _ _ => hscene (hchores.detach _ _)⟩

/-- Before an instruction is executed, the attempt at it is noted if the run is traced, and nothing
else is noted as an attempt after that. -/
theorem attempt_traces (offset : Nat) (i : Instr) (m : Machine δ ν β τ) :
    traces (Step.after (attempt H mem traced offset i) m).journal =
      traces m.journal ++ if traced then [.attempted offset i m.stack.depth] else [] := by
  have hleads : Step.Leads (fun m m' : Machine δ ν β τ => traces m'.journal = traces m.journal)
      (exec H mem i) := exec_leads traces_parts.deeds mem i fun _ _ _ _ _ _ _ => rfl
  have hexec := Step.leads_iff.mp hleads (m.noted traced offset i)
  have hafter : Step.after (attempt H mem traced offset i) m
      = Step.after (exec H mem i) (m.noted traced offset i) := by
    unfold Step.after
    rw [attempt_eq]
  rw [hafter, hexec]
  cases traced with
  | false => exact (List.append_nil _).symm
  | true => exact traces_push _ _

theorem attempt_stores (offset : Nat) (i : Instr) (m : Machine δ ν β τ) :
    Step.Ends (attempt H mem traced offset i) m
      (fun _ m' => m'.strings = storeAll m.strings (stored? mem i).toList)
      fun _ m' => m'.strings = m.strings := by
  have hnoted : (m.noted traced offset i).strings = m.strings := by
    cases traced <;> rfl
  rw [Step.Ends, attempt_eq, ← hnoted]
  exact exec_stores i (m.noted traced offset i)

/-! ## Attempts that fail -/

/-- What attempts at `ops` have done to the string table and to the trace: the texts of those that
were executed are stored, and all that were attempted are noted if the run is traced. -/
structure Accounts (H : Host δ ν β) (mem : Bytes) (traced : Bool)
    (executed attempted : List (Nat × Instr)) (m m' : Machine δ ν β τ) : Prop where
  strings : m'.strings = storeAll m.strings (storedBy mem executed)
  trace : traces m'.journal =
    traces m.journal ++ if traced then attempts H mem traced attempted m else []

/-- Attempts at `ops` from `m` have failed with `e` at one of them: those before it were executed,
it has left `m'` when it failed, and those after it were not attempted. -/
def FailsAt (H : Host δ ν β) (mem : Bytes) (traced : Bool) (ops : List (Nat × Instr))
    (m : Machine δ ν β τ) (e : Error) (m' : Machine δ ν β τ) : Prop :=
  ∃ done op rest m₁, ops = done ++ op :: rest ∧ attemptAll H mem traced done m = .ok () m₁ ∧
    attempt H mem traced op.1 op.2 m₁ = .error e m' ∧
    Accounts H mem traced done (done ++ [op]) m m'

theorem attempt_accounts (op : Nat × Instr) (m : Machine δ ν β τ) :
    Step.Ends (attempt H mem traced op.1 op.2) m
      (fun _ m' => Accounts H mem traced [op] [op] m m')
      fun _ m' => Accounts H mem traced [] [op] m m' := by
  have htrace : traces (Step.after (attempt H mem traced op.1 op.2) m).journal
      = traces m.journal ++ if traced then attempts H mem traced [op] m else [] :=
    attempt_traces op.1 op.2 m
  have hstores : Step.Ends (attempt H mem traced op.1 op.2) m _ _ :=
    attempt_stores op.1 op.2 m
  unfold Step.after at htrace
  unfold Step.Ends at hstores ⊢
  cases hop : attempt H mem traced op.1 op.2 m with
  | ok u m' =>
    rw [hop] at htrace hstores
    refine ⟨?_, htrace⟩
    rw [hstores, storedBy, List.filterMap_cons]
    cases stored? mem op.2 <;> rfl
  | error e m' =>
    rw [hop] at htrace hstores
    exact ⟨hstores, htrace⟩

/-- One instruction more is executed before the others. -/
theorem Accounts.cons {op : Nat × Instr} {executed attempted : List (Nat × Instr)}
    {m m₁ m' : Machine δ ν β τ} (hop : attempt H mem traced op.1 op.2 m = .ok () m₁)
    (h : Accounts H mem traced executed attempted m₁ m') :
    Accounts H mem traced (op :: executed) (op :: attempted) m m' := by
  have hfirst := (Step.ends_iff.mp (attempt_accounts (H := H) op m)).1 () m₁ hop
  constructor
  · have hsplit : storedBy mem (op :: executed) = storedBy mem [op] ++ storedBy mem executed :=
      List.filterMap_append (l := [op])
    rw [h.strings, hfirst.strings, hsplit]
    exact (List.foldl_append ..).symm
  · have hafter : Step.after (attempt H mem traced op.1 op.2) m = m₁ := by
      rw [Step.after, hop]
    rw [h.trace, hfirst.trace, List.append_assoc]
    cases traced with
    | false => rfl
    | true =>
      show _ ++ ([_] ++ attempts H mem true attempted m₁) = _ ++ (_ :: attempts _ _ _ _ _)
      rw [hafter]
      rfl

/-- Attempts are all executed, or one of them fails. -/
theorem attemptAll_ends (ops : List (Nat × Instr)) (m : Machine δ ν β τ) :
    Step.Ends (attemptAll H mem traced ops) m (fun _ m' => Accounts H mem traced ops ops m m')
      fun e m' => FailsAt H mem traced ops m e m' := by
  induction ops generalizing m with
  | nil =>
    refine ⟨rfl, ?_⟩
    cases traced <;> exact (List.append_nil _).symm
  | cons op ops ih =>
    rw [attemptAll_cons, Step.ends_bind, Step.ends_iff]
    constructor
    · intro _ m₁ hop
      refine (ih m₁).mono (fun _ m' h => h.cons hop) ?_
      rintro e m' ⟨done, op', rest, m₂, rfl, hdone, hop', h⟩
      refine ⟨op :: done, op', rest, m₂, rfl, ?_, hop', h.cons hop⟩
      rw [attemptAll_cons, Step.bind_ok hop]
      exact hdone
    · intro e m' hop
      have hone := (Step.ends_iff.mp (attempt_accounts (H := H) op m)).2 e m' hop
      exact ⟨[], op, ops, m, rfl, rfl, hop, hone⟩

end TreeEdit.Machine
