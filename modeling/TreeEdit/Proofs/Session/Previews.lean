import TreeEdit.Document.Hosting
import TreeEdit.Proofs.Listing
import TreeEdit.Proofs.Session.Steps

/-!
# Previews against runs

A listing finds out about string ids without running anything: it goes through what was decoded and
keeps the texts that are stored on the way. A run does the same with its string table, but stops at
the first instruction that fails, and may find texts in the table from before. As far as a run gets,
the table holds what the listing knows (`Backs`), so that a preview shows the text that the
instruction takes, or shows that the range has not stored it (`previews_of_executions`).
-/

namespace TreeEdit

open Binary (Bytes)
open Document (host)
open Listing (Captioned Known captions caption learned part quoted quoted_ne_unknown shown)
open Machine (stored?)

variable {δ ν β τ : Type} {H : Host δ ν β} {mem : Bytes} {traced : Bool}

/-- Takes a text, as instructions do. -/
def TextRef.take (mem : Bytes) : TextRef → Machine.Act δ ν β τ String
  | .placed ptr len => Machine.textAt mem ptr len
  | .stored id => Machine.string id

/-- The texts in `t` are those that are known, and under the other ids those in `t₀`. -/
def StringTable.Backs (t t₀ : StringTable) (known : Known) : Prop :=
  ∀ id, t.get id = match known.get? id with
    | some text => .ok text
    | none => t₀.get id

theorem StringTable.backs_refl (t : StringTable) : t.Backs t .empty := fun _ => rfl

/-- What is shown of a text agrees with what the machine takes. Any text that is shown is the one
that is taken, and a text in the memory is always shown; and if `fresh`, a stored text is shown
whenever there is one. -/
structure Agrees (mem : Bytes) (fresh : Prop) (m : Machine δ ν β τ) (ref : TextRef) (s : String) :
    Prop where
  shown : s ≠ "?" → ∃ t, ref.take mem m = .ok t m ∧ s = quoted t
  placed : ∀ ptr len, ref = .placed ptr len → s ≠ "?"
  found : fresh → ∀ t, ref.take mem m = .ok t m → s = quoted t
  missing : fresh →
    ((∃ id, ref = .stored id ∧ ref.take mem m = .error (.missingString id) m) ↔ s = "?")

theorem agrees_of_text {m : Machine δ ν β τ} {ref : TextRef} {t : String}
    (h : ref.take mem m = .ok t m) (fresh : Prop) : Agrees mem fresh m ref (quoted t) where
  shown _ := ⟨t, h, rfl⟩
  placed _ _ _ := quoted_ne_unknown t
  found _ t' h' := by
    cases h.symm.trans h'
    rfl
  missing _ := by
    refine ⟨?_, fun hq => absurd hq (quoted_ne_unknown t)⟩
    rintro ⟨id, rfl, herr⟩
    cases h.symm.trans herr

theorem take_stored (m : Machine δ ν β τ) (id : UInt32) :
    (TextRef.stored id).take mem m = Step.ofExcept (m.strings.get id) m := rfl

/-- A part of a line agrees with a machine whose texts are those that the line knows. -/
theorem agrees_of_part {m : Machine δ ν β τ} {t₀ : StringTable} {known : Known} {ref : TextRef}
    {s : String} (hm : m.strings.Backs t₀ known) (h : part mem known ref = .ok s) :
    Agrees mem (t₀ = .empty) m ref s := by
  cases ref with
  | placed ptr len =>
    rw [part] at h
    cases ht : Binary.text mem ptr len with
    | error f =>
      rw [ht] at h
      cases h
    | ok t =>
      rw [ht] at h
      cases h
      refine agrees_of_text ?_ _
      show Step.ofExcept ((Binary.text mem ptr len).mapError Error.fault) m = _
      rw [ht]
      rfl
  | stored id =>
    cases h
    -- what was stored on the way hides what was there from the start
    have hid := hm id
    unfold Listing.shown
    cases hknown : known.get? id with
    | some t =>
      rw [hknown] at hid
      refine agrees_of_text ?_ _
      rw [take_stored, hid]
      rfl
    | none =>
      rw [hknown] at hid
      have hfresh (h₀ : t₀ = .empty) :
          (TextRef.stored id).take mem m = .error (.missingString id) m := by
        rw [take_stored, hid, h₀]
        rfl
      exact {
        shown := fun h => absurd rfl h
        placed := fun _ _ h => by cases h
        found := fun h₀ t ht => by cases (hfresh h₀).symm.trans ht
        missing := fun h₀ => ⟨fun _ => rfl, fun _ => ⟨id, rfl, hfresh h₀⟩⟩ }

/-- An instruction that is executed stores what the listing learns from it. -/
theorem backs_of_exec {m m' : Machine δ ν β τ} {t₀ : StringTable} {known : Known} {i : Instr}
    (hm : m.strings.Backs t₀ known) (h : Machine.exec H mem i m = .ok () m') :
    m'.strings.Backs t₀ (learned mem known i) := by
  have hstores : m'.strings = Machine.storeAll m.strings (stored? mem i).toList :=
    (Step.ends_iff.mp (Machine.exec_stores i m)).1 () m' h
  intro id
  rw [hstores, learned]
  cases stored? mem i with
  | none => exact hm id
  | some w =>
    show (m.strings.add w.2 w.1).get id = match (known.put w.1 w.2).get? id with
      | some text => .ok text
      | none => t₀.get id
    rw [StringTable.get_add, OrderedMap.get?_put]
    by_cases hid : w.1 = id
    · rw [if_pos hid, if_pos hid]
    · rw [if_neg hid, if_neg hid]
      exact hm id

/-! ## As far as a run gets -/

/-- The execution with number `k` is shown by the line with that number. -/
def ShownAt (mem : Bytes) (fresh : Prop) (ops : List (Nat × Instr)) (parts : List (List String))
    (k : Nat) (execution : Machine δ ν β τ × Instr) : Prop :=
  ∃ offset ps, ops[k]? = some (offset, execution.2) ∧ parts[k]? = some ps ∧
    List.Forall₂ (Agrees mem fresh execution.1) execution.2.texts ps

theorem executionsFrom_shown (c : Binary.Cursor) {ops : List (Nat × Instr)}
    {parts : List (List String)} {m : Machine δ ν β τ} {t₀ : StringTable} {known : Known}
    (hops : Instr.readAll c = .ok ops) (hparts : Captioned mem known ops parts)
    (hm : m.strings.Backs t₀ known) {k : Nat} {execution : Machine δ ν β τ × Instr}
    (hk : (Machine.executionsFrom H mem traced c m)[k]? = some execution) :
    ShownAt mem (t₀ = .empty) ops parts k execution := by
  induction c using Machine.cursor_induction generalizing ops parts m known k with
  | ended c hend =>
    rw [Machine.executionsFrom_of_end hend] at hk
    cases hk
  | fault c f c' hend hr =>
    rw [Machine.executionsFrom_of_fault hr] at hk
    cases hk
  | past c i c' hr ih =>
    have hne : c.rest ≠ [] := List.isEmpty_eq_false_iff.mp (Machine.atEnd_of_read hr)
    rw [Instr.readAll_of_ok hne hr] at hops
    cases hops' : Instr.readAll c' with
    | error f =>
      rw [hops'] at hops
      cases hops
    | ok ops' =>
      rw [hops'] at hops
      cases hops
      cases hparts with
      | cons first rest =>
        have hnoted : (m.noted traced c.offset i).strings.Backs t₀ known := by
          cases traced <;> exact hm
        rw [Machine.executionsFrom_of_read hr] at hk
        cases k with
        | zero =>
          cases hk
          exact ⟨c.offset, _, rfl, rfl, first.imp fun _ _ => agrees_of_part hnoted⟩
        | succ k =>
          rw [List.getElem?_cons_succ] at hk
          cases hexec : Machine.exec H mem i (m.noted traced c.offset i) with
          | error e m' =>
            rw [hexec] at hk
            cases hk
          | ok u m' =>
            rw [hexec] at hk
            exact ih hops' rest (backs_of_exec hnoted hexec) hk

theorem executionsRange_shown {span : Span} {ops : List (Nat × Instr)}
    {parts : List (List String)} {m : Machine δ ν β τ}
    (hops : Instr.decodeRange mem span.start span.len = .ok ops)
    (hparts : Captioned mem .empty ops parts) {k : Nat} {execution : Machine δ ν β τ × Instr}
    (hk : (Machine.executionsRange H mem traced span m)[k]? = some execution) :
    ShownAt mem (m.strings = .empty) ops parts k execution := by
  rw [Instr.decodeRange] at hops
  rw [Machine.executionsRange] at hk
  cases hc : Binary.Cursor.ofRange mem span.start span.len with
  | error f =>
    rw [hc] at hk
    cases hk
  | ok c =>
    rw [hc] at hops hk
    exact executionsFrom_shown c hops hparts m.strings.backs_refl hk

namespace Session

theorem executions_of_one {s : Session δ ν β τ} {span : Span} (h : s.pending = [span])
    (k : Nat) {execution : Machine δ ν β τ × Instr}
    (hk : (executions H mem s)[k]? = some execution) :
    ∃ m : Machine δ ν β τ, m.strings = s.strings ∧
      (Machine.executionsRange H mem s.config.traced span m)[k]? = some execution := by
  rw [executions] at hk
  cases ha : s.lifecycle with
  | unmounted =>
    rw [ha] at hk
    cases hk
  | active =>
    rw [ha] at hk
    rcases Machine.push_cases (H.rootSeed s.doc s.root) s.toMachine with hpush | ⟨limit, hpush⟩
    · rw [hpush, h] at hk
      dsimp only at hk
      rw [Machine.executionsAll_singleton] at hk
      exact ⟨s.toMachine.withSlots (H.rootSeed s.doc s.root :: s.stack.slots), rfl, hk⟩
    · rw [hpush] at hk
      cases hk

/-- A listing is made of a header and of lines, one for each instruction, that show the texts which
the instructions take. Whatever machine runs the range, on whatever document: any text that is shown
for an instruction which the run comes to is the one that it takes there. If the string table was
empty when the run started, then a text is shown for each that is found, and a question mark just
for each that is missing. So it is in a session that has the range queued. -/
theorem previews_of_executions {start len : UInt32} {text : String}
    (h : listing mem start len = .ok text) :
    ∃ ops parts, Instr.decodeRange mem start len = .ok ops ∧
      text = String.join (Listing.header start len :: captions ops parts) ∧
      (∀ (H : Host δ ν β) (traced : Bool) (m : Machine δ ν β τ) (k : Nat)
        (execution : Machine δ ν β τ × Instr),
        (Machine.executionsRange H mem traced ⟨start, len⟩ m)[k]? = some execution →
          ShownAt mem (m.strings = .empty) ops parts k execution) ∧
      ∀ (H : Host δ ν β) (s : Session δ ν β τ), s.pending = [⟨start, len⟩] →
        ∀ (k : Nat) (execution : Machine δ ν β τ × Instr),
          (executions H mem s)[k]? = some execution →
            ShownAt mem (s.strings = .empty) ops parts k execution := by
  obtain ⟨ops, parts, hops, hparts, rfl⟩ := Listing.listing_ok h
  refine ⟨ops, parts, hops, rfl, fun H traced m k execution hk => ?_,
    fun H s hs k execution hk => ?_⟩
  · exact executionsRange_shown hops hparts hk
  · obtain ⟨m, hm, hk'⟩ := executions_of_one hs k hk
    rw [← hm]
    exact executionsRange_shown hops hparts hk'

/-- A program that stores a text and makes an element with that name, and then one with a name that
it has not stored. -/
def nameTwice : Bytes :=
  (Instr.addString 0 0 5).encode ++ ((Instr.createElement 5).encode ++
    ((Instr.createElement 6).encode ++ []))

/-- The run comes to all three instructions, and each is previewed by the text that it takes or by
the lack of one. -/
theorem previews_of_nameTwice :
    ∃ text ops parts, listing nameTwice 0 32 = .ok text ∧
      text = String.join (Listing.header 0 32 :: captions ops parts) ∧
      ∃ executions : List (Machine (Document ListenerId) NodeId Nat Unit × Instr),
        executions.map Prod.snd = [.addString 0 0 5, .createElement 5, .createElement 6] ∧
        ∀ k execution, executions[k]? = some execution →
          ShownAt nameTwice True ops parts k execution := by
  let m : Machine (Document ListenerId) NodeId Nat Unit :=
    (start (Document.withSeed "main" "button") ⟨0⟩ .standard).toMachine
  have hempty : m.strings = .empty := rfl
  have hne (i : Instr) (rest : Bytes) : i.encode ++ rest ≠ [] := by
    cases i <;> nofun
  have hdecode : Instr.decodeRange nameTwice 0 32
      = .ok [(0, .addString 0 0 5), (16, .createElement 5), (24, .createElement 6)] := by
    show Instr.readAll ⟨0, nameTwice⟩ = _
    rw [nameTwice,
      Instr.readAll_of_ok (hne _ _) (Instr.read_encode (.addString 0 0 5) 0 _),
      Instr.readAll_of_ok (hne _ _) (Instr.read_encode (.createElement 5) _ _),
      Instr.readAll_of_ok (hne _ _) (Instr.read_encode (.createElement 6) _ _),
      Instr.readAll_of_nil rfl]
    rfl
  have hlisting : ∃ text, listing nameTwice 0 32 = .ok text := by
    rw [listing, hdecode]
    exact ⟨_, rfl⟩
  have hrun : (Machine.executionsRange (host id) nameTwice false ⟨0, 32⟩ m).map Prod.snd
      = [.addString 0 0 5, .createElement 5, .createElement 6] := by
    show (Machine.executionsFrom (host id) nameTwice false ⟨0, nameTwice⟩ m).map Prod.snd = _
    obtain ⟨m₁, h₁, m₂, h₂, e, m₃, h₃⟩ :
        ∃ m₁, Machine.exec (host id) nameTwice (.addString 0 0 5) m = .ok () m₁ ∧
        ∃ m₂, Machine.exec (host id) nameTwice (.createElement 5) m₁ = .ok () m₂ ∧
          ∃ e m₃, Machine.exec (host id) nameTwice (.createElement 6) m₂ = .error e m₃ :=
      ⟨_, rfl, _, rfl, _, _, rfl⟩
    rw [nameTwice] at h₁ h₂ h₃ ⊢
    simp only [Machine.executionsFrom_of_read (Instr.read_encode _ _ _), Machine.noted,
      Bool.false_eq_true, if_false, h₁, h₂, h₃, List.map]
  obtain ⟨text, htext⟩ := hlisting
  obtain ⟨ops, parts, -, hjoin, hshown, -⟩ := previews_of_executions (τ := Unit) htext
  exact ⟨text, ops, parts, htext, hjoin, _, hrun, fun k e hk => by
    obtain ⟨offset, ps, hop, hps, hagrees⟩ := hshown (host id) false m k e hk
    exact ⟨offset, ps, hop, hps, eq_true hempty ▸ hagrees⟩⟩

end Session

end TreeEdit
