import TreeEdit.Proofs.Following
import TreeEdit.Proofs.Listing
import TreeEdit.Proofs.Machine.Folding

/-!
# The bytes that a run reads

A run reads the bytes of its ranges, and those of the texts that the instructions in them point at
(`MayRead`). Where a second memory holds the same bytes at these offsets and is no shorter, a run on
it goes as on the first one, unless the first one does not have all the bytes that are asked for
(`runAll_inBounds`). The length of a memory matters for nothing else.
-/

namespace TreeEdit

open Binary (Bytes)
open Instr (window)

/-- The error is that a range or a text reaches beyond the memory. -/
def Error.Overrun (e : Error) : Prop :=
  ∃ start len size, e = .fault (.outOfBounds start len size)

namespace Binary

/-- The offset belongs to the `len` bytes at `start`. -/
def Covers (start len : UInt32) (i : Nat) : Prop :=
  start.toNat ≤ i ∧ i < start.toNat + len.toNat

/-- Of the `len` bytes at `start`, the second memory has those that the first one has. -/
def Shared (mem mem' : Bytes) (start len : UInt32) : Prop :=
  ∀ i < mem.length, Covers start len i → mem'[i]? = mem[i]?

variable {mem mem' : Bytes} {start len : UInt32}

/-- The same bytes make the same range. -/
theorem window_congr (hin : start.toNat + len.toNat ≤ mem.length)
    (hsame : Shared mem mem' start len) :
    window mem' start len = window mem start len := by
  refine List.ext_getElem? fun k => ?_
  rw [window, window, List.getElem?_take, List.getElem?_take, List.getElem?_drop,
    List.getElem?_drop]
  by_cases hk : k < len.toNat
  · rw [if_pos hk, if_pos hk]
    exact hsame _ (by omega) ⟨Nat.le_add_right _ _, Nat.add_lt_add_left hk _⟩
  · rw [if_neg hk, if_neg hk]

/-- A longer memory with the same bytes in a place has the same text there, unless the place
reaches beyond the shorter one. -/
theorem text_congr (hle : mem.length ≤ mem'.length)
    (hsame : Shared mem mem' start len) :
    text mem' start len = text mem start len ∨
      text mem start len = .error (.outOfBounds start.toNat len.toNat mem.length) := by
  rw [text, text, slice, slice]
  by_cases hin : start.toNat + len.toNat ≤ mem.length
  · left
    rw [if_pos hin, if_pos (hin.trans hle)]
    exact congrArg (fun bytes => Except.map _ (Except.ok bytes)) (window_congr hin hsame)
  · right
    rw [if_neg hin]
    rfl

end Binary

namespace Machine

open Binary (Covers Shared)

variable {δ ν β τ α γ : Type} {H : Host δ ν β} {mem mem' : Bytes} {traced : Bool}

/-- To run some ranges of the memory, the byte at the offset may be read: it belongs to one of them,
or to a text that an instruction in one of them points at. -/
inductive MayRead (mem : Bytes) (spans : List Span) (i : Nat) : Prop
  | range {span : Span} (hspan : span ∈ spans) (hi : Covers span.start span.len i)
  | text {span : Span} {op : Nat × Instr} {ptr len : UInt32} (hspan : span ∈ spans)
    (hop : op ∈ (reading mem span).1) (htext : .placed ptr len ∈ op.2.texts) (hi : Covers ptr len i)

/-- The steps come to the same, unless the second one is broken off because its memory is too short.
The first one is a step on the longer memory. -/
abbrev InBounds (x y : Act δ ν β τ α) : Prop :=
  Step.Follows Eq (fun _ e _ => e.Overrun) x y

/-! ## Reading -/

theorem reading_congr {span : Span} (hle : mem.length ≤ mem'.length)
    (hin : span.start.toNat + span.len.toNat ≤ mem.length)
    (hsame : Shared mem mem' span.start span.len) :
    reading mem' span = reading mem span := by
  have hrange : Binary.checkRange mem'.length span.start span.len
      = Binary.checkRange mem.length span.start span.len := by
    rw [Binary.checkRange, Binary.checkRange, if_pos hin, if_pos (hin.trans hle)]
  cases hp : Binary.checkRange mem.length span.start span.len with
  | error f =>
    rw [(reads_reading mem span).refused f hp,
      (reads_reading mem' span).refused f (hrange.trans hp)]
  | ok p =>
    rw [reading, reading, (Instr.ofRange_of_checked hp).1,
      (Instr.ofRange_of_checked (hrange.trans hp)).1, Binary.window_congr hin hsame]

theorem script_congr {spans : List Span}
    (h : ∀ span ∈ spans, reading mem' span = reading mem span) :
    script mem' spans = script mem spans := by
  induction spans with
  | nil => rfl
  | cons span spans ih =>
    rw [script, script, h span List.mem_cons_self,
      ih fun span' h' => h span' (List.mem_cons_of_mem _ h')]

/-- What is read of a queue is read of one of its ranges. -/
theorem exists_reading_of_script {spans : List Span} {op : Nat × Instr}
    (h : op ∈ (script mem spans).1) : ∃ span ∈ spans, op ∈ (reading mem span).1 := by
  induction spans with
  | nil => cases h
  | cons span spans ih =>
    rw [script] at h
    cases hr : reading mem span with
    | mk ops fault =>
      rw [hr] at h
      have hhere (hop : op ∈ ops) : ∃ span' ∈ span :: spans, op ∈ (reading mem span').1 :=
        ⟨span, List.mem_cons_self, hr ▸ hop⟩
      cases fault with
      | some f => exact hhere h
      | none =>
        rcases List.mem_append.mp h with hop | hop
        · exact hhere hop
        · obtain ⟨span', hspan', hop'⟩ := ih hop
          exact ⟨span', List.mem_cons_of_mem _ hspan', hop'⟩

/-! ## Executing -/

/-- A step that does not look at the memory. -/
theorem inBounds_refl (x : Act δ ν β τ α) : InBounds x x :=
  Step.follows_of_agree (fun hm => Step.agree_refl x hm) (Step.leads_iff.mpr fun _ _ _ h => h)

theorem textAt_inBounds {ptr len : UInt32} (hle : mem.length ≤ mem'.length)
    (hsame : Shared mem mem' ptr len) :
    InBounds (textAt mem' ptr len : Act δ ν β τ String) (textAt mem ptr len) := by
  rcases Binary.text_congr hle hsame with htext | htext
  · rw [textAt, textAt, htext]
    exact inBounds_refl _
  · have hbroken (m : Machine δ ν β τ) : (textAt mem ptr len : Act δ ν β τ String) m
        = .error (.fault (.outOfBounds ptr.toNat len.toNat mem.length)) m := by
      rw [textAt, htext]
      rfl
    exact ⟨fun {_ m'} _ => .inr ⟨_, m', hbroken m', _, _, _, rfl⟩,
      Step.leads_iff.mpr fun _ _ _ h => h⟩

/-- An instruction looks at the memory only for the texts that it points at. -/
theorem exec_inBounds {i : Instr} (hle : mem.length ≤ mem'.length)
    (hsame : ∀ ptr len, .placed ptr len ∈ i.texts → Shared mem mem' ptr len) :
    InBounds (exec H mem' i : Act δ ν β τ Unit) (exec H mem i) := by
  cases i with
  | setText ptr len | createText ptr len | addString ptr len id =>
    exact (textAt_inBounds hle (hsame ptr len List.mem_cons_self)).bind fun _ => inBounds_refl _
  | _ => exact inBounds_refl _

theorem attemptAll_inBounds {ops : List (Nat × Instr)} (hle : mem.length ≤ mem'.length)
    (hsame : ∀ op ∈ ops, ∀ ptr len, .placed ptr len ∈ op.2.texts → Shared mem mem' ptr len) :
    InBounds (attemptAll H mem' traced ops : Act δ ν β τ Unit) (attemptAll H mem traced ops) := by
  induction ops with
  | nil => exact inBounds_refl _
  | cons op ops ih =>
    have hexec : InBounds (exec H mem' op.2 : Act δ ν β τ Unit) (exec H mem op.2) :=
      exec_inBounds hle (hsame op List.mem_cons_self)
    have hattempt : InBounds (attempt H mem' traced op.1 op.2 : Act δ ν β τ Unit)
        (attempt H mem traced op.1 op.2) := by
      cases traced with
      | false => exact hexec
      | true =>
        exact (inBounds_refl get).bind fun _ => (inBounds_refl _).bind fun _ => hexec
    exact hattempt.bind fun _ => ih fun op' h' => hsame op' (List.mem_cons_of_mem _ h')

theorem runAll_inBounds {spans : List Span} (hle : mem.length ≤ mem'.length)
    (hin : ∀ span ∈ spans, span.start.toNat + span.len.toNat ≤ mem.length)
    (hsame : ∀ i < mem.length, MayRead mem spans i → mem'[i]? = mem[i]?) :
    InBounds (runAll H mem' traced spans : Act δ ν β τ Nat) (runAll H mem traced spans) := by
  have hscript : script mem' spans = script mem spans :=
    script_congr fun span hspan => reading_congr hle (hin span hspan) fun i hi hcovers =>
      hsame i hi (.range hspan hcovers)
  rw [runAll_eq, runAll_eq, hscript]
  refine (attemptAll_inBounds hle fun op hop ptr len htext k hk hcovers => ?_).bind
    fun _ => inBounds_refl _
  obtain ⟨span, hspan, hop'⟩ := exists_reading_of_script hop
  exact hsame k hk (.text hspan hop' htext hcovers)

end Machine

end TreeEdit
