import Mathlib.Data.List.Induction
import Mathlib.Order.MinMax
import TreeEdit.Proofs.Program.Items

/-!
# How texts are numbered

The ids that texts have been given make up a log: those that a builder chose when it was asked for
the id of a text, and those that came with the text. What the builder remembers is what the log says
last, and the next new id is the least number above the first id and above all of the log, as long
as a word can hold it (`Numbered`). So a new id is greater than every id before it, however those
were given, and the ids end with the greatest word (`numbered_makeAll`).
-/

namespace TreeEdit

open Text.Numeral (maxWord)

/-- A text was given an id: by the builder, which chose it, or explicitly. -/
structure Attribution where
  text : String
  id : UInt32
  automatic : Bool
  deriving DecidableEq, Repr

namespace Attribution

variable {log : List Attribution} {a : Attribution} {text : String} {first id : UInt32}

/-! ## What a log says -/

/-- The last id of `text` is `id`, and no other text has been given that id since. -/
def Holds (log : List Attribution) (text : String) (id : UInt32) : Prop :=
  ∃ before automatic after, log = before ++ ⟨text, id, automatic⟩ :: after ∧
    ∀ a ∈ after, a.text ≠ text ∧ a.id ≠ id

theorem not_holds_nil (text : String) (id : UInt32) : ¬Holds [] text id := by
  rintro ⟨before, automatic, after, hlog, -⟩
  exact List.append_ne_nil_of_right_ne_nil before (List.cons_ne_nil _ after) hlog.symm

theorem holds_concat : Holds (log ++ [a]) text id ↔
    if a.text = text then a.id = id else Holds log text id ∧ id ≠ a.id := by
  constructor
  · rintro ⟨before, automatic, after, hlog, hafter⟩
    rcases after.eq_nil_or_concat with rfl | ⟨after, a', rfl⟩
    · obtain ⟨-, rfl⟩ := List.append_singleton_inj.mp hlog
      rw [if_pos rfl]
    · rw [List.concat_eq_append] at hlog hafter
      rw [← List.cons_append, ← List.append_assoc, List.append_singleton_inj] at hlog
      obtain ⟨rfl, rfl⟩ := hlog
      obtain ⟨htext, hid⟩ := hafter a (List.mem_append_right _ (List.mem_singleton_self a))
      rw [if_neg htext]
      exact ⟨⟨before, automatic, after, rfl, fun e he => hafter e (List.mem_append_left _ he)⟩,
        hid.symm⟩
  · split
    · rintro rfl
      rename_i htext
      subst htext
      exact ⟨log, a.automatic, [], rfl, fun e he => absurd he List.not_mem_nil⟩
    · rename_i htext
      rintro ⟨⟨before, automatic, after, rfl, hafter⟩, hid⟩
      refine ⟨before, automatic, after ++ [a], by simp only [List.append_assoc, List.cons_append],
        fun e he => ?_⟩
      obtain he | he := List.mem_append.mp he
      · exact hafter e he
      · rw [List.mem_singleton.mp he]
        exact ⟨htext, hid.symm⟩

/-- The least number that is not below `first` and above all ids of the log. It may be too great
for a word. -/
def counter (first : UInt32) (log : List Attribution) : Nat :=
  log.foldl (fun n a => max n (a.id.toNat + 1)) first.toNat

theorem counter_concat :
    counter first (log ++ [a]) = max (counter first log) (a.id.toNat + 1) := by
  rw [counter, List.foldl_append]
  rfl

theorem le_counter (first : UInt32) (log : List Attribution) :
    first.toNat ≤ counter first log := by
  induction log using List.reverseRecOn with
  | nil => exact Nat.le_refl _
  | append_singleton log a ih =>
    rw [counter_concat]
    exact Nat.le_trans ih (Nat.le_max_left _ _)

theorem lt_counter (first : UInt32) (h : a ∈ log) : a.id.toNat < counter first log := by
  induction log using List.reverseRecOn with
  | nil => cases h
  | append_singleton log a' ih =>
    rw [counter_concat]
    obtain h | h := List.mem_append.mp h
    · exact Nat.lt_of_lt_of_le (ih h) (Nat.le_max_left _ _)
    · rw [List.mem_singleton.mp h]
      exact Nat.le_max_right _ _

/-- The counter leaves the words when the greatest one is given, and only then. -/
theorem maxWord_lt_counter_iff :
    maxWord < counter first log ↔ ∃ a ∈ log, a.id.toNat = maxWord := by
  induction log using List.reverseRecOn with
  | nil =>
    have hfirst : ¬maxWord < first.toNat := Nat.not_lt.mpr (Nat.le_of_lt_succ first.toNat_lt)
    exact ⟨fun h => absurd h hfirst, fun ⟨_, h, _⟩ => absurd h List.not_mem_nil⟩
  | append_singleton log a ih =>
    have hid : maxWord < a.id.toNat + 1 ↔ a.id.toNat = maxWord :=
      ⟨fun h => Nat.le_antisymm (Nat.le_of_lt_succ a.id.toNat_lt) (Nat.le_of_lt_succ h),
        fun h => h ▸ Nat.lt_succ_self _⟩
    simp only [counter_concat, lt_max_iff, ih, hid, List.mem_append, List.mem_singleton,
      or_and_right, exists_or, exists_eq_left]

end Attribution

/-! ## Which ids are given -/

/-- The attribution that asking for the id of a text makes: one if the builder emits something for
it, none if it only answers, or fails. -/
def Builder.asking (b : Builder) (text : String) : List Attribution :=
  match stringId text b with
  | .ok id b' => if b'.count = b.count then [] else [⟨text, id, true⟩]
  | .error _ _ => []

/-- The attributions of asking for the id of a text, and those that follow once there is one. -/
def Builder.askingThen (b : Builder) (text : String) (k : Builder → List Attribution) :
    List Attribution :=
  b.asking text ++
    match stringId text b with
    | .ok _ b' => k b'
    | .error _ _ => []

/-- The attributions that a statement makes, also when it fails midway. -/
def Statement.attributions (b : Builder) : Statement → List Attribution
  | setAttribute name value => b.askingThen name fun b' => b'.asking value
  | removeAttribute text | createElement text | newListener text _ _ | updateListener text _ _
  | removeListener text => b.asking text
  | addString text id => [⟨text, id, false⟩]
  | setText _ | createText _ | removeSelfAndNextSiblings | replaceWith | pushFirstChild
  | popPushNextSibling | pop | appendChild | raw _ => []

namespace Call

/-- The attributions that a call makes. An instruction that is emitted as it is makes none. -/
def attributions (b : Builder) : Call → List Attribution
  | intern _ | instr _ => []
  | request (.stringId text) => b.asking text
  | request (.statement st) => st.attributions b

/-- The attributions that some calls make, in order. -/
def attributionsAll : List Call → Builder → List Attribution
  | [], _ => []
  | c :: cs, b => c.attributions b ++ attributionsAll cs (Step.after c.emit b)

end Call

namespace Builder

open Attribution (Holds counter)

variable {b b' : Builder} {text : String} {first id : UInt32} {log : List Attribution}

/-! ## Asking for an id -/

theorem stringId_of_known (h : b.ids.get? text = some id) : stringId text b = .ok id b := by
  rw [stringId, Step.get_bind, h]
  rfl

theorem stringId_of_next (h : b.ids.get? text = none) (hnext : b.nextId = some id) :
    stringId text b = .ok id (b.named text id) := by
  rw [stringId, Step.get_bind, h]
  dsimp only
  rw [Step.get_bind, hnext]
  exact Step.bind_ok (addString_eq text id)

theorem stringId_of_spent (h : b.ids.get? text = none) (hnext : b.nextId = none) :
    stringId text b = .error .idsExhausted b := by
  rw [stringId, Step.get_bind, h]
  dsimp only
  rw [Step.get_bind, hnext]
  rfl

theorem asking_of_known (h : b.ids.get? text = some id) : b.asking text = [] := by
  simp only [asking, stringId_of_known h, if_pos]

theorem asking_of_next (h : b.ids.get? text = none) (hnext : b.nextId = some id) :
    b.asking text = [⟨text, id, true⟩] := by
  have hcount : (b.named text id).count ≠ b.count := Nat.succ_ne_self _
  simp only [asking, stringId_of_next h hnext, if_neg hcount]

theorem asking_of_spent (h : b.ids.get? text = none) (hnext : b.nextId = none) :
    b.asking text = [] := by
  simp only [asking, stringId_of_spent h hnext]

theorem askingThen_nil (b : Builder) (text : String) :
    b.askingThen text (fun _ => []) = b.asking text := by
  rw [askingThen]
  cases stringId text b <;> exact List.append_nil _

/-! ## The next new id -/

/-- A number as the next new id: none if it is too great for a word. -/
def fitting (n : Nat) : Option Nat :=
  if n ≤ maxWord then some n else none

theorem successor?_fitting (id : UInt32) :
    (successor? id).map UInt32.toNat = fitting (id.toNat + 1) := by
  have hid : id.toNat ≤ maxWord := Nat.le_of_lt_succ id.toNat_lt
  rw [successor?, fitting]
  split
  · rename_i hmax
    rw [if_neg (by omega)]
    rfl
  · rename_i hmax
    have hsucc : id.toNat + 1 ≤ maxWord := by omega
    rw [if_pos hsucc, Option.map_some, UInt32.toNat_add]
    exact congrArg some (Nat.mod_eq_of_lt (Nat.lt_succ_of_le hsucc))

/-- What a word can hold of the counter stays right when an id is given explicitly. -/
theorem nextAfter_fitting {next : Option UInt32} {n : Nat}
    (h : next.map UInt32.toNat = fitting n) (id : UInt32) :
    (nextAfter id next).map UInt32.toNat = fitting (max n (id.toNat + 1)) := by
  cases next with
  | none =>
    have hn : ¬n ≤ maxWord := fun hle => by
      rw [fitting, if_pos hle] at h
      cases h
    rw [fitting, if_neg fun hle => hn (Nat.le_trans (Nat.le_max_left _ _) hle)]
    rfl
  | some next =>
    have hn : next.toNat = n := by
      rw [fitting] at h
      split at h
      · exact Option.some_inj.mp h
      · cases h
    subst hn
    rw [nextAfter]
    split
    · rename_i hle
      have hle : next.toNat ≤ id.toNat + 1 := Nat.le_succ_of_le hle
      rw [Nat.max_eq_right hle]
      exact successor?_fitting id
    · rename_i hlt
      have hlt : id.toNat + 1 ≤ next.toNat := UInt32.not_le.mp hlt
      rw [Nat.max_eq_left hlt]
      exact h

/-! ## The log of a builder -/

/-- The log tells what the builder knows, and the builder has numbered texts as it should. -/
structure Numbered (first : UInt32) (log : List Attribution) (b : Builder) : Prop where
  /-- The builder remembers a text under its last id, unless another text was given that id. -/
  remembered : ∀ text id, b.ids.get? text = some id ↔ Holds log text id
  /-- No two texts are remembered under the same id. -/
  apart : ∀ text text' id,
    b.ids.get? text = some id → b.ids.get? text' = some id → text = text'
  /-- The builder chooses no id below the first one. -/
  above : ∀ a ∈ log, a.automatic = true → first ≤ a.id
  /-- The builder chooses only ids that are greater than all given before, in any way. -/
  rising : log.Pairwise fun earlier a => a.automatic = true → earlier.id < a.id
  /-- The next new id is the counter itself, never a remainder of it. -/
  counted : b.nextId.map UInt32.toNat = fitting (counter first log)

theorem numbered_startingAt (first : UInt32) : Numbered first [] (startingAt first) where
  remembered text id :=
    ⟨fun h => (nomatch h), fun h => absurd h (Attribution.not_holds_nil text id)⟩
  apart _ _ _ h := nomatch h
  above _ h := absurd h List.not_mem_nil
  rising := .nil
  counted := by
    rw [fitting]
    exact (if_pos (Nat.le_of_lt_succ first.toNat_lt)).symm

namespace Numbered

/-- Only which texts have which ids matters. -/
theorem of_eq (h : Numbered first log b) (hids : b'.ids = b.ids) (hnext : b'.nextId = b.nextId) :
    Numbered first log b' where
  remembered := hids ▸ h.remembered
  apart := hids ▸ h.apart
  above := h.above
  rising := h.rising
  counted := hnext ▸ h.counted

theorem eq_counter (h : Numbered first log b) (hnext : b.nextId = some id) :
    id.toNat = counter first log := by
  have hcounted := h.counted
  rw [hnext, fitting] at hcounted
  split at hcounted
  · exact Option.some_inj.mp hcounted
  · cases hcounted

theorem nextId_eq_none_iff (h : Numbered first log b) :
    b.nextId = none ↔ ∃ a ∈ log, a.id.toNat = maxWord := by
  have hcounted := h.counted
  rw [← Attribution.maxWord_lt_counter_iff, ← Option.map_eq_none_iff, hcounted, fitting]
  split
  · rename_i hle
    exact ⟨fun h => (nomatch h), fun h => absurd hle (Nat.not_le.mpr h)⟩
  · rename_i hlt
    exact ⟨fun _ => Nat.lt_of_not_le hlt, fun _ => rfl⟩

theorem get?_eq_none_iff (h : Numbered first log b) :
    b.ids.get? text = none ↔ ∀ id, ¬Holds log text id := by
  rw [Option.eq_none_iff_forall_ne_some]
  exact forall_congr' fun id => not_congr (h.remembered text id)

/-- One more attribution. If the builder chose the id, it is the next new one. -/
theorem named (h : Numbered first log b) (text : String) {id : UInt32} {automatic : Bool}
    (hid : automatic = true → b.nextId = some id) :
    Numbered first (log ++ [⟨text, id, automatic⟩]) (b.named text id) where
  remembered text' id' := by
    rw [ids_named, get?_assign, Attribution.holds_concat, h.remembered]
  apart text₁ text₂ id' h₁ h₂ := by
    rw [ids_named, get?_assign] at h₁ h₂
    split at h₁ <;> split at h₂
    · rename_i htext₁ htext₂
      exact htext₁.symm.trans htext₂
    · exact absurd h₁.symm h₂.2
    · exact absurd h₂.symm h₁.2
    · exact h.apart text₁ text₂ id' h₁.1 h₂.1
  above a ha hauto := by
    obtain ha | ha := List.mem_append.mp ha
    · exact h.above a ha hauto
    · cases List.mem_singleton.mp ha
      exact UInt32.le_iff_toNat_le.mpr
        (h.eq_counter (hid hauto) ▸ Attribution.le_counter first log)
  rising := by
    refine List.pairwise_append.mpr
      ⟨h.rising, List.pairwise_singleton _ _, fun e he a ha hauto => ?_⟩
    cases List.mem_singleton.mp ha
    exact UInt32.lt_iff_toNat_lt.mpr (h.eq_counter (hid hauto) ▸ Attribution.lt_counter first he)
  counted := by
    rw [nextId_named, Attribution.counter_concat]
    exact nextAfter_fitting h.counted id

theorem asked (h : Numbered first log b) (text : String) :
    Step.Ends (stringId text) b (fun _ b' => Numbered first (log ++ b.asking text) b')
      fun _ b' => Numbered first (log ++ b.asking text) b' := by
  unfold Step.Ends
  cases hknown : b.ids.get? text with
  | some id =>
    rw [stringId_of_known hknown, asking_of_known hknown, List.append_nil]
    exact h
  | none =>
    cases hnext : b.nextId with
    | some id =>
      rw [stringId_of_next hknown hnext, asking_of_next hknown hnext]
      exact h.named text fun _ => hnext
    | none =>
      rw [stringId_of_spent hknown hnext, asking_of_spent hknown hnext, List.append_nil]
      exact h

theorem instructed (h : Numbered first log b) (i : Instr) : Numbered first log (b.instructed i) :=
  h.of_eq rfl rfl

/-- A step that first asks for an id, and makes the attributions `k` once it has it. -/
theorem naming (h : Numbered first log b) (text : String) {f : UInt32 → Emission Unit}
    {k : Builder → List Attribution}
    (hk : ∀ id b' log', Numbered first log' b' →
      Numbered first (log' ++ k b') (Step.after (f id) b')) :
    Numbered first (log ++ b.askingThen text k) (Step.after (stringId text >>= f) b) := by
  have hends := h.asked text
  unfold Step.Ends at hends
  unfold Step.after askingThen
  cases hid : stringId text b with
  | ok id b' =>
    rw [hid] at hends
    rw [Step.bind_ok hid, ← List.append_assoc]
    exact hk id b' _ hends
  | error e b' =>
    rw [hid] at hends
    rw [Step.bind_error hid, List.append_nil]
    exact hends

/-- A step that asks for an id and emits an instruction with it. -/
theorem naming_instr {i : UInt32 → Instr} (h : Numbered first log b) :
    Numbered first (log ++ b.asking text)
      (Step.after (do emitInstr (i (← stringId text)) : Emission Unit) b) := by
  rw [← askingThen_nil]
  refine h.naming text fun id b' log' hlog => ?_
  rw [List.append_nil]
  exact hlog.instructed _

theorem statement (h : Numbered first log b) (st : Statement) :
    Numbered first (log ++ st.attributions b) (Step.after st.emit b) := by
  cases st with
  | addString text id => exact h.named text fun hauto => (nomatch hauto)
  | setAttribute name value => exact h.naming name fun _ _ _ h' => h'.naming_instr
  | removeAttribute text | createElement text | newListener text _ _ | updateListener text _ _
  | removeListener text => exact h.naming_instr
  | setText _ | createText _ | removeSelfAndNextSiblings | replaceWith | pushFirstChild
  | popPushNextSibling | pop | appendChild | raw _ =>
    rw [Statement.attributions, List.append_nil]
    exact h.of_eq rfl rfl

theorem call (h : Numbered first log b) (c : Call) :
    Numbered first (log ++ c.attributions b) (Step.after c.emit b) := by
  cases c with
  | intern text =>
    rw [Call.attributions, List.append_nil]
    exact h.of_eq rfl rfl
  | instr i =>
    rw [Call.attributions, List.append_nil]
    exact h.instructed i
  | request r =>
    cases r with
    | stringId text =>
      refine Step.Ends.after (P := Numbered first _) ?_
      show Step.Ends (stringId text >>= fun _ => pure ()) b _ _
      rw [Step.ends_bind]
      exact (h.asked text).mono (fun _ _ h' => h') fun _ _ h' => h'
    | statement st => exact h.statement st

/-- The log grows by what each call attributes. -/
theorem makeAll (h : Numbered first log b) (cs : List Call) :
    Numbered first (log ++ Call.attributionsAll cs b) (Call.makeAll cs b) := by
  induction cs generalizing log b with
  | nil => rwa [Call.attributionsAll, List.append_nil]
  | cons c cs ih =>
    rw [Call.attributionsAll, ← List.append_assoc]
    exact ih (h.call c)

end Numbered

/-! ## What a builder answers -/

/-- What the builder does when it is asked for the id of `text`. -/
structure Answers (first : UInt32) (log : List Attribution) (b : Builder) (text : String) :
    Prop where
  /-- A text whose last id has not gone to another text has that id. Nothing is emitted. -/
  found : ∀ id, Holds log text id → stringId text b = .ok id b
  /-- No id is left for the text exactly if it has none and the greatest word has been given. Then
  nothing is emitted either. -/
  exhausted : ∀ e b', stringId text b = .error e b' ↔
    e = .idsExhausted ∧ b' = b ∧ (∀ id, ¬Holds log text id) ∧ ∃ a ∈ log, a.id.toNat = maxWord
  /-- Otherwise the text gets an id above all before it, and the instruction for that is emitted. -/
  allocated : (∀ id, ¬Holds log text id) → (∀ a ∈ log, a.id.toNat ≠ maxWord) →
    ∃ id, stringId text b = .ok id (b.named text id) ∧ first ≤ id ∧ ∀ a ∈ log, a.id < id

theorem Numbered.answers (h : Numbered first log b) (text : String) : Answers first log b text where
  found id hid := stringId_of_known ((h.remembered text id).mpr hid)
  exhausted e b' := by
    rw [← h.get?_eq_none_iff, ← h.nextId_eq_none_iff]
    constructor
    · intro herr
      cases hknown : b.ids.get? text with
      | some id =>
        rw [stringId_of_known hknown] at herr
        cases herr
      | none =>
        cases hnext : b.nextId with
        | some id =>
          rw [stringId_of_next hknown hnext] at herr
          cases herr
        | none =>
          rw [stringId_of_spent hknown hnext] at herr
          cases herr
          exact ⟨rfl, rfl, rfl, rfl⟩
    · rintro ⟨rfl, rfl, hknown, hnext⟩
      exact stringId_of_spent hknown hnext
  allocated hnone hmax := by
    have hknown := h.get?_eq_none_iff.mpr hnone
    have hleft : b.nextId ≠ none := fun hnext => by
      obtain ⟨a, ha, hid⟩ := h.nextId_eq_none_iff.mp hnext
      exact hmax a ha hid
    obtain ⟨id, hnext⟩ := Option.ne_none_iff_exists'.mp hleft
    have hid := h.eq_counter hnext
    refine ⟨id, stringId_of_next hknown hnext, UInt32.le_iff_toNat_le.mpr ?_, fun a ha =>
      UInt32.lt_iff_toNat_lt.mpr ?_⟩
    · rw [hid]
      exact Attribution.le_counter first log
    · rw [hid]
      exact Attribution.lt_counter first ha

end Builder

/-- After any calls to a builder, failed ones among them, texts are numbered as they should be: new
ids rise from the first one on, above all that came before, and there is none once the greatest word
has been given, by the builder or explicitly. Which id a text gets next follows from the log. -/
theorem Call.numbered_makeAll (first : UInt32) (cs : List Call) :
    let b := makeAll cs (Builder.startingAt first)
    let log := attributionsAll cs (Builder.startingAt first)
    Builder.Numbered first log b ∧
      log.Pairwise (fun earlier a => earlier.id.toNat = maxWord → a.automatic = false) ∧
      ∀ text, Builder.Answers first log b text := by
  have h := (Builder.numbered_startingAt first).makeAll cs
  rw [List.nil_append] at h
  refine ⟨h, h.rising.imp fun {earlier a} hlt hmax => ?_, h.answers⟩
  -- nothing is greater than the greatest word
  by_contra hauto
  have habove : earlier.id.toNat < a.id.toNat :=
    UInt32.lt_iff_toNat_lt.mp (hlt (Bool.of_not_eq_false hauto))
  have hword : a.id.toNat ≤ maxWord := Nat.le_of_lt_succ a.id.toNat_lt
  omega

/-- A text whose id has gone to another text gets a new one. -/
example : Call.attributionsAll [.request (.statement (.createElement "p")),
      .request (.statement (.addString "span" 0)), .request (.statement (.createElement "p"))]
      (Builder.startingAt 0)
    = [⟨"p", 0, true⟩, ⟨"span", 0, false⟩, ⟨"p", 1, true⟩] := by
  decide

end TreeEdit
