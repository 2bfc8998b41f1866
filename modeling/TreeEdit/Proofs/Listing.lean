import Mathlib.Data.List.Forall2
import TreeEdit.Listing
import TreeEdit.Proofs.Machine.Folding

/-!
# What the lines of a listing show

An instruction takes some texts, each of which it either points at in the memory or names by a
string id. The line of an instruction shows these texts, one after another (`preview_ok`), and a
listing has a line for each instruction that was decoded, where a text that was stored by one is
known to all after it (`listing_ok`).
-/

namespace TreeEdit

open Binary (Bytes)
open Machine (stored?)

/-- How an instruction says which text it takes. -/
inductive TextRef
  /-- The text at a place of the memory. -/
  | placed (ptr len : UInt32)
  /-- The text that is stored under a string id. -/
  | stored (id : UInt32)
  deriving DecidableEq, Repr

/-- The texts that an instruction takes, in order. -/
def Instr.texts : Instr → List TextRef
  | setText ptr len | createText ptr len | addString ptr len _ => [.placed ptr len]
  | setAttribute name value => [.stored name, .stored value]
  | removeAttribute id | createElement id | newListener id _ _ | updateListener id _ _
  | removeListener id => [.stored id]
  | removeSelfAndNextSiblings | replaceWith | pushFirstChild | popPushNextSibling | pop
  | appendChild => []

namespace Listing

variable {mem : Bytes} {known : Known}

/-- A quoted text is never mistaken for an unknown one. -/
theorem quoted_ne_unknown (t : String) : quoted t ≠ "?" := by
  intro h
  have hlist : Text.Quoted.excerpt t.toList = ['?'] := by
    simpa [quoted] using congrArg String.toList h
  unfold Text.Quoted.excerpt at hlist
  split at hlist
  · cases hlist
  · cases hlist

/-- What is shown for a text that an instruction takes. -/
def part (mem : Bytes) (known : Known) : TextRef → Except Fault String
  | .placed ptr len => return quoted (← Binary.text mem ptr len)
  | .stored id => return shown known id

/-- The preview that shows some parts. -/
def caption : List String → Option String
  | [] => none
  | p :: ps => some (ps.foldl (· ++ "=" ++ ·) p)

/-- What is known after an instruction. -/
def learned (mem : Bytes) (known : Known) (i : Instr) : Known :=
  (stored? mem i).elim known fun w => known.put w.1 w.2

/-- A preview shows the texts that the instruction takes. -/
theorem preview_ok {i : Instr} {p : Option String} {known' : Known}
    (h : preview mem known i = .ok (p, known')) :
    known' = learned mem known i ∧ ∃ ps, p = caption ps ∧
      List.Forall₂ (fun ref s => part mem known ref = .ok s) i.texts ps := by
  cases i with
  | setText ptr len | createText ptr len =>
    rw [preview] at h
    cases ht : Binary.text mem ptr len with
    | error f =>
      rw [ht] at h
      cases h
    | ok t =>
      rw [ht] at h
      cases h
      refine ⟨rfl, [quoted t], rfl, .cons ?_ .nil⟩
      rw [part, ht]
      rfl
  | addString ptr len id =>
    rw [preview] at h
    cases ht : Binary.text mem ptr len with
    | error f =>
      rw [ht] at h
      cases h
    | ok t =>
      rw [ht] at h
      cases h
      refine ⟨?_, [quoted t], rfl, .cons ?_ .nil⟩
      · rw [learned, stored?, ht]
        rfl
      · rw [part, ht]
        rfl
  | setAttribute name value =>
    cases h
    exact ⟨rfl, [shown known name, shown known value], rfl, .cons rfl (.cons rfl .nil)⟩
  | removeAttribute id | createElement id | removeListener id =>
    cases h
    exact ⟨rfl, [shown known id], rfl, .cons rfl .nil⟩
  | newListener id a b | updateListener id a b =>
    cases h
    exact ⟨rfl, [shown known id], rfl, .cons rfl .nil⟩
  | removeSelfAndNextSiblings | replaceWith | pushFirstChild | popPushNextSibling | pop
  | appendChild =>
    cases h
    exact ⟨rfl, [], rfl, .nil⟩

/-- The parts that are shown for instructions, where some texts are known before the first. -/
inductive Captioned (mem : Bytes) : Known → List (Nat × Instr) → List (List String) → Prop
  | nil (known : Known) : Captioned mem known [] []
  | cons {known : Known} {offset : Nat} {i : Instr} {ps : List String} {ops : List (Nat × Instr)}
      {parts : List (List String)}
      (first : List.Forall₂ (fun ref s => part mem known ref = .ok s) i.texts ps)
      (rest : Captioned mem (learned mem known i) ops parts) :
      Captioned mem known ((offset, i) :: ops) (ps :: parts)

/-- The lines that show parts. -/
def captions (ops : List (Nat × Instr)) (parts : List (List String)) : List String :=
  List.zipWith (fun op ps => line op.1 op.2 (caption ps)) ops parts

theorem body_ok {ops : List (Nat × Instr)} {lines : List String}
    (h : body mem known ops = .ok lines) :
    ∃ parts, Captioned mem known ops parts ∧ lines = captions ops parts := by
  induction ops generalizing known lines with
  | nil =>
    cases h
    exact ⟨[], .nil known, rfl⟩
  | cons op ops ih =>
    obtain ⟨offset, i⟩ := op
    rw [body] at h
    cases hp : preview mem known i with
    | error f =>
      rw [hp] at h
      cases h
    | ok r =>
      obtain ⟨p, known'⟩ := r
      obtain ⟨rfl, ps, rfl, hps⟩ := preview_ok hp
      rw [hp] at h
      replace h : (body mem (learned mem known i) ops >>= fun lines =>
        pure (line offset i (caption ps) :: lines)) = .ok lines := h
      cases hrest : body mem (learned mem known i) ops with
      | error f =>
        rw [hrest] at h
        cases h
      | ok lines' =>
        rw [hrest] at h
        cases h
        obtain ⟨parts, hparts, rfl⟩ := ih hrest
        exact ⟨ps :: parts, .cons hps hparts, rfl⟩

/-- A listing is a header and a line for each instruction that was decoded. -/
theorem listing_ok {start len : UInt32} {text : String} (h : listing mem start len = .ok text) :
    ∃ ops parts, Instr.decodeRange mem start len = .ok ops ∧ Captioned mem .empty ops parts ∧
      text = String.join (header start len :: captions ops parts) := by
  rw [listing] at h
  cases hops : Instr.decodeRange mem start len with
  | error f =>
    rw [hops] at h
    cases h
  | ok ops =>
    rw [hops] at h
    replace h : (body mem .empty ops >>= fun lines =>
      pure (String.join (header start len :: lines))) = .ok text := h
    cases hbody : body mem .empty ops with
    | error f =>
      rw [hbody] at h
      cases h
    | ok lines =>
      rw [hbody] at h
      cases h
      obtain ⟨parts, hparts, rfl⟩ := body_ok hbody
      exact ⟨ops, parts, rfl, hparts, rfl⟩

end Listing

end TreeEdit
