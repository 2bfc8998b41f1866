import TreeEdit.Proofs.Machine.Raising
import TreeEdit.Proofs.Session.Lifecycle

/-!
# What the configuration of a session decides

The configuration of a session decides how an application may end, and never what it does. Two
sessions that differ in nothing but their configurations make the same calls and come to the same
document, unless one of them runs out of room on its stack. That one has then done what the other
one did up to there. A strict session differs from one that is not in the verdict on the slots that
a run leaves, and only in that (`effects_of_apply`).
-/

namespace TreeEdit

open Binary (Bytes)
open Step (Chains Leads)

variable {δ ν β τ : Type} {H : Host δ ν β}

/-- The calls under watch only become more. -/
theorem Host.recorded_along (H : Host δ ν β) :
    (H.watched fun _ => none).Along fun w w' => w.calls.toList <+: w'.calls.toList where
  chains := ⟨fun _ => List.prefix_refl _, List.IsPrefix.trans⟩
  perform c := by
    rw [Step.leads_iff]
    intro w
    rw [after_recorded, Array.toList_push]
    exact List.prefix_append _ _

namespace Config

/-- The configuration with another limit on the depth of the stack. -/
def within (c : Config) (limit : Option Nat) : Config :=
  { c with maxStackDepth := limit }

/-- What is said about a run that has left `depth` slots. -/
def verdict (c : Config) (depth : Nat) : Except Error Unit :=
  if c.strictStack ∧ depth > 1 then .error (.unbalancedStack depth) else .ok ()

variable {c : Config} {depth : Nat}

theorem verdict_of_relaxed (h : c.strictStack = false) : c.verdict depth = .ok () :=
  if_neg fun hstrict => by cases h.symm.trans hstrict.1

theorem verdict_of_le (h : depth ≤ 1) : c.verdict depth = .ok () :=
  if_neg fun hstrict => Nat.not_lt.mpr h hstrict.2

theorem verdict_of_strict (h : c.strictStack = true) (hd : 1 < depth) :
    c.verdict depth = .error (.unbalancedStack depth) :=
  if_pos ⟨h, hd⟩

end Config

namespace Session

variable {s s' : Session δ ν β τ} {c c' : Config} {D : δ → δ → Prop} {mem : Bytes}

/-- The session as it would be with another configuration, between two requests. -/
def configured (s : Session δ ν β τ) (c : Config) : Session δ ν β τ :=
  { s with config := c, stack := .empty c.maxStackDepth }

/-- Between two requests a session is as its configuration has it. -/
theorem configured_of_history {E : δ → δ → Prop} {doc : δ} {root : ν} {log : Log τ}
    (h : History H E (start doc root c) log s) : s.configured s.config = s := by
  have hstack := (orderly_of_history h).stack
  rw [configured, ← hstack]

/-- The sessions differ in their configurations and journals at most. -/
structure Reconfigured (s s' : Session δ ν β τ) : Prop where
  doc : s.doc = s'.doc
  listeners : s.listeners = s'.listeners
  strings : s.strings = s'.strings
  slots : s.stack.slots = s'.stack.slots
  root : s.root = s'.root
  pending : s.pending = s'.pending
  lifecycle : s.lifecycle = s'.lifecycle

/-- To apply the queued ranges makes the same calls in both sessions and leaves them the same, their
configurations and journals apart. -/
structure SameEffects (H : Host δ ν β) (mem : Bytes) (s s' : Session δ ν β τ) : Prop where
  calls : s.calls H mem = s'.calls H mem
  left : Reconfigured (Step.after (apply H mem) s) (Step.after (apply H mem) s')

/-! ## Applications up to the verdict -/

/-- How an application ends before anything is said about the slots that are left: with an error, or
with their number. -/
def course (H : Host δ ν β) (mem : Bytes) (s : Session δ ν β τ) : Except Error Nat :=
  match s.lifecycle, s.pending with
  | .unmounted, _ => .error .unmounted
  | .active, [] => .ok 0
  | .active, _ :: _ =>
    match work H mem s s.toMachine with
    | .ok _ m => .ok m.stack.depth
    | .error e _ => .error e

theorem course_of_active (ha : s.lifecycle = .active) (hp : s.pending ≠ []) :
    course H mem s =
      match work H mem s s.toMachine with
      | .ok _ m => .ok m.stack.depth
      | .error e _ => .error e := by
  obtain ⟨span, spans, hp⟩ := List.exists_cons_of_ne_nil hp
  rw [course, ha, hp]

/-- With nothing to run, an application leaves the session as it is. -/
theorem course_of_still (h : s.lifecycle = .unmounted ∨ s.pending = []) (mem : Bytes) :
    Step.after (apply H mem) s = s ∧ course H mem s =
      match s.lifecycle with
      | .unmounted => .error .unmounted
      | .active => .ok 0 := by
  cases ha : s.lifecycle with
  | unmounted =>
    rw [Step.after, apply, Step.bind_error (ensureActive_of_unmounted ha), course, ha]
    exact ⟨rfl, rfl⟩
  | active =>
    have hp : s.pending = [] := h.resolve_left fun hu => by cases ha.symm.trans hu
    rw [Step.after, apply_of_idle ha hp, course, ha, hp]
    exact ⟨rfl, rfl⟩

theorem settle_eq (config : Config) (executed : Nat) (s : Session δ ν β τ) :
    settle config executed s =
      match config.verdict s.stack.depth with
      | .ok () => .ok executed s
      | .error e => .error e s := by
  rw [settle, Step.get_bind, Config.verdict]
  split <;> rfl

/-- All that a session says of its own is the verdict. -/
theorem ending_apply (H : Host δ ν β) (mem : Bytes) (s : Session δ ν β τ) :
    ending (apply H mem) s = course H mem s >>= s.config.verdict := by
  rw [ending]
  cases ha : s.lifecycle with
  | unmounted =>
    rw [course, ha, apply, Step.bind_error (ensureActive_of_unmounted ha)]
    rfl
  | active =>
    by_cases hp : s.pending = []
    · rw [course, ha, hp, apply_of_idle ha hp]
      exact (Config.verdict_of_le (Nat.zero_le 1)).symm
    · rw [course_of_active ha hp, apply_of_active ha hp]
      cases hw : work H mem s s.toMachine with
      | error e m =>
        rw [run_of_work_error hw]
        rfl
      | ok executed m =>
        rw [run_of_work_ok hw, settle_eq]
        show _ = s.config.verdict m.stack.depth
        cases s.config.verdict m.stack.depth <;> rfl

/-- A program does not run into what only a verdict says. -/
theorem course_ne_unbalanced (H : Host δ ν β) (mem : Bytes) (s : Session δ ν β τ) (depth : Nat) :
    course H mem s ≠ .error (.unbalancedStack depth) := by
  intro h
  rw [course] at h
  split at h
  · cases h
  · cases h
  · have hraises : Step.Raises Error.OfProgram (work H mem s) :=
      (Step.raises_onPart (Stack.Basic.push _).raises).bind fun _ => Machine.runAll_raises mem _ _
    have hw := hraises s.toMachine
    rw [Step.Ends] at hw
    split at h
    · cases h
    · rename_i e m hx
      rw [hx] at hw
      cases h
      exact hw

/-! ## Two configurations -/

theorem work_outlasts (hH : H.Along D) (hle : Stack.AtMost c'.maxStackDepth c.maxStackDepth)
    (mem : Bytes) (s : Session δ ν β τ) :
    Machine.Outlasts D c.maxStackDepth c'.maxStackDepth (work H mem (s.configured c))
      (work H mem (s.configured c')) :=
  (Machine.onStack_outlasts hH hle (.push _)).bind fun _ => Machine.runAll_outlasts hH hle _

/-- With no more room the application does the same, or it has done the same until there was no room
left for a slot. -/
theorem apply_outlasts (hH : H.Along D) (hle : Stack.AtMost c'.maxStackDepth c.maxStackDepth)
    (mem : Bytes) (s : Session δ ν β τ) :
    course H mem (s.configured c) = course H mem (s.configured c') ∧
        Reconfigured (Step.after (apply H mem) (s.configured c))
          (Step.after (apply H mem) (s.configured c')) ∨
      ∃ limit, c'.maxStackDepth = some limit ∧ c.maxStackDepth ≠ c'.maxStackDepth ∧
        course H mem (s.configured c') = .error (.stackOverflow limit) ∧
        D (Step.after (apply H mem) (s.configured c')).doc
          (Step.after (apply H mem) (s.configured c)).doc := by
  -- a run is compared only where both sessions make one
  by_cases hstill : s.lifecycle = .unmounted ∨ s.pending = []
  · obtain ⟨hafter, hcourse⟩ := course_of_still (H := H) (s := s.configured c) hstill mem
    obtain ⟨hafter', hcourse'⟩ := course_of_still (H := H) (s := s.configured c') hstill mem
    rw [hafter, hafter', hcourse, hcourse']
    exact .inl ⟨rfl, rfl, rfl, rfl, rfl, rfl, rfl, rfl⟩
  obtain ⟨hl, hp⟩ := not_or.mp hstill
  have ha : s.lifecycle = .active := by
    cases hactive : s.lifecycle with
    | active => rfl
    | unmounted => exact absurd hactive hl
  have hroomier : (s.configured c).toMachine.Roomier c.maxStackDepth c'.maxStackDepth
      (s.configured c').toMachine := ⟨⟨rfl, rfl⟩, ⟨rfl, rfl, rfl⟩, rfl⟩
  obtain ⟨notice, hafter⟩ := after_apply_of_active (H := H) (s := s.configured c) ha hp mem
  obtain ⟨notice', hafter'⟩ := after_apply_of_active (H := H) (s := s.configured c') ha hp mem
  rw [hafter, hafter', course_of_active (s := s.configured c) ha hp,
    course_of_active (s := s.configured c') ha hp]
  rcases (work_outlasts hH hle mem s).along hroomier with
    hagree | ⟨e, t', hw', ⟨limit, hlimit, hne, rfl⟩, hD⟩
  · have hend := hagree.after
    refine .inl ⟨?_, hend.scene.doc, hend.scene.listeners, hend.strings, rfl, rfl, rfl, rfl⟩
    rcases Step.agree_iff.mp hagree with ⟨n, m, m', hw, hw', hm⟩ | ⟨e, m, m', hw, hw', -⟩
    · have hdepth : m.stack.depth = m'.stack.depth := congrArg List.length hm.stack.slots
      rw [hw, hw']
      exact congrArg Except.ok hdepth
    · rw [hw, hw']
  · refine .inr ⟨limit, hlimit, hne, ?_, ?_⟩
    · rw [hw']
    · unfold Step.after at hD ⊢
      rw [hw']
      exact hD

theorem ending_of_course_error {e : Error} (h : course H mem s = .error e) :
    ending (apply H mem) s = .error e := by
  rw [ending_apply, h]
  rfl

theorem ending_recorded (H : Host δ ν β) (mem : Bytes) (s : Session δ ν β τ) :
    ending (apply (H.watched fun _ => none) mem) s.watched = ending (apply H mem) s := by
  rw [ending, ending]
  rcases Step.agree_iff.mp (apply_recorded H mem s) with
    ⟨_, _, _, h, h', -⟩ | ⟨_, _, _, h, h', -⟩ <;> rw [h, h']

/-- As long as there is room for every slot, more room changes nothing. -/
theorem sameEffects_of_room (hle : Stack.AtMost c'.maxStackDepth c.maxStackDepth)
    (hroom : ∀ limit, c'.maxStackDepth = some limit → c.maxStackDepth ≠ c'.maxStackDepth →
      ending (apply H mem) (s.configured c') ≠ .error (.stackOverflow limit)) :
    SameEffects H mem (s.configured c) (s.configured c') ∧
      course H mem (s.configured c) = course H mem (s.configured c') := by
  have hanywhere : H.Along fun _ _ => True :=
    ⟨⟨fun _ => trivial, fun _ _ => trivial⟩, fun _ => Step.leads_iff.mpr fun _ => trivial⟩
  -- once as it is, for how it ends and what it leaves, and once under watch, for the calls
  rcases apply_outlasts hanywhere hle mem s with
    ⟨hcourse, hleft⟩ | ⟨limit, hlimit, hne, hfull, -⟩
  · rcases apply_outlasts H.recorded_along hle mem s.watched with
      ⟨-, hwatched⟩ | ⟨limit, hlimit, hne, hfull, -⟩
    · exact ⟨⟨congrArg (fun w => w.calls.toList) hwatched.doc, hleft⟩, hcourse⟩
    · have hend := ending_of_course_error hfull
      exact absurd ((ending_recorded H mem (s.configured c')).symm.trans hend)
        (hroom limit hlimit hne)
  · exact absurd (ending_of_course_error hfull) (hroom limit hlimit hne)

/-- With the same limit, other configurations change nothing. -/
theorem sameEffects_of_limit (h : c.maxStackDepth = c'.maxStackDepth) (H : Host δ ν β)
    (mem : Bytes) (s : Session δ ν β τ) :
    SameEffects H mem (s.configured c) (s.configured c') ∧
      course H mem (s.configured c) = course H mem (s.configured c') :=
  sameEffects_of_room (fun u hu => ⟨u, h ▸ hu, Nat.le_refl u⟩) fun _ _ hne => absurd h hne

/-- Sessions that are equally strict say the same of the same course. -/
theorem ending_of_course (hstrict : c.strictStack = c'.strictStack)
    (h : course H mem (s.configured c) = course H mem (s.configured c')) :
    ending (apply H mem) (s.configured c) = ending (apply H mem) (s.configured c') := by
  have hverdict : c.verdict = c'.verdict := by
    funext depth
    rw [Config.verdict, Config.verdict, hstrict]
  rw [ending_apply, ending_apply, h]
  exact congrArg (course H mem (s.configured c') >>= ·) hverdict

/-- The calls that an application makes are the first of those that it makes with more room. -/
theorem calls_prefix (hle : Stack.AtMost c'.maxStackDepth c.maxStackDepth) :
    (s.configured c').calls H mem <+: (s.configured c).calls H mem := by
  rcases apply_outlasts H.recorded_along hle mem s.watched with
    ⟨-, hwatched⟩ | ⟨-, -, -, -, hprefix⟩
  · have hcalls : (s.configured c).calls H mem = (s.configured c').calls H mem :=
      congrArg (fun w => w.calls.toList) hwatched.doc
    rw [hcalls]
  · exact hprefix

/-! ## Depths -/

/-- What a run executes, it executes within the limit. -/
theorem depth_le_of_executions {limit : Nat} {execution : Machine δ ν β τ × Instr}
    (he : execution ∈ executions H mem (s.configured (c.within (some limit)))) :
    execution.1.stack.depth ≤ limit ∧
      (Step.after (Machine.exec H mem execution.2) execution.1).stack.depth ≤ limit := by
  let t := s.configured (c.within (some limit))
  have hstays : t.stack.StaysWithin execution.1.stack ∧
      t.stack.StaysWithin (Step.after (Machine.exec H mem execution.2) execution.1).stack := by
    have hpush := Machine.deeds_staysWithin.stack (H := H) (.push (H.rootSeed t.doc t.root))
      t.toMachine
    rw [executions] at he
    rw [Step.Ends] at hpush
    split at he
    · rename_i _ m _ hm
      rw [hm] at hpush
      obtain ⟨hcome, hleave⟩ := Machine.staysWithin_of_executions he
      exact ⟨Stack.chains_staysWithin.trans hpush hcome,
        Stack.chains_staysWithin.trans hpush hleave⟩
    · cases he
  exact ⟨hstays.1.depth_le rfl (Nat.zero_le limit), hstays.2.depth_le rfl (Nat.zero_le limit)⟩

/-- And what it leaves is within the limit. -/
theorem depth_le_of_run (H : Host δ ν β) (mem : Bytes) (s : Session δ ν β τ) (c : Config)
    (limit : Nat) :
    (Step.after (run H mem) (s.configured (c.within (some limit)))).stack.depth ≤ limit := by
  have hwork := work_leads (H := H) Machine.deeds_staysWithin Machine.stores_staysWithin
    Machine.notes_staysWithin mem (s.configured (c.within (some limit)))
  rw [after_run]
  exact (Step.leads_iff.mp hwork _).depth_le rfl (Nat.zero_le limit)

/-! ## Verdicts -/

/-- A session that is not strict has an answer for every run that comes to its end. -/
theorem run_eq_ok_iff (hrelaxed : s.config.strictStack = false) {executed : Nat} :
    run H mem s = .ok executed s' ↔
      ∃ m, work H mem s s.toMachine = .ok executed m ∧ { s with toMachine := m } = s' := by
  cases hw : work H mem s s.toMachine with
  | error e m =>
    rw [run_of_work_error hw]
    simp
  | ok n m =>
    have hbalanced : ¬(s.config.strictStack ∧ m.stack.depth > 1) := by simp [hrelaxed]
    rw [run_of_work_ok hw, settle_of_balanced hbalanced]
    simp

/-- Without ranges a run leaves the slot that it started from. -/
theorem depth_of_idle (hp : s.pending = []) (hs : s.stack.slots = []) {executed : Nat}
    {m : Machine δ ν β τ} (hw : work H mem s s.toMachine = .ok executed m) :
    m.stack.depth = 1 := by
  rw [work, hp] at hw
  rcases Machine.push_cases (H.rootSeed s.doc s.root) s.toMachine with h | ⟨limit, h⟩
  · rw [Step.bind_ok h] at hw
    cases hw
    exact congrArg (fun slots => (_ :: slots).length) hs
  · rw [Step.bind_error h] at hw
    cases hw

/-- More than one slot is left just where the work comes to its end and leaves them. -/
theorem course_eq_ok_iff_work (hs : s.stack.slots = []) {depth : Nat} (hdepth : 1 < depth) :
    course H mem s = .ok depth ↔ s.lifecycle = .active ∧
      ∃ executed m, work H mem s s.toMachine = .ok executed m ∧ m.stack.depth = depth := by
  constructor
  · intro h
    rw [course] at h
    split at h
    · cases h
    · cases h
      cases hdepth
    · rename_i ha _
      split at h
      · rename_i executed m hw
        cases h
        exact ⟨ha, executed, m, hw, rfl⟩
      · cases h
  · rintro ⟨ha, executed, m, hw, rfl⟩
    -- without ranges nothing is run, and a run would not leave that much
    by_cases hp : s.pending = []
    · exact absurd (depth_of_idle hp hs hw ▸ hdepth) (Nat.lt_irrefl 1)
    · rw [course_of_active ha hp, hw]

theorem course_eq_ok_iff (hrelaxed : s.config.strictStack = false) (hs : s.stack.slots = [])
    {depth : Nat} (hdepth : 1 < depth) :
    course H mem s = .ok depth ↔ ending (apply H mem) s = .ok () ∧
      ∃ executed s', run H mem s = .ok executed s' ∧ s'.stack.depth = depth := by
  rw [ending_apply]
  constructor
  · intro h
    obtain ⟨-, executed, m, hw, hm⟩ := (course_eq_ok_iff_work hs hdepth).mp h
    rw [h]
    exact ⟨Config.verdict_of_relaxed hrelaxed, executed, _,
      (run_eq_ok_iff hrelaxed).mpr ⟨m, hw, rfl⟩, hm⟩
  · rintro ⟨hend, executed, s', hrun, rfl⟩
    obtain ⟨m, hw, rfl⟩ := (run_eq_ok_iff hrelaxed).mp hrun
    cases hl : s.lifecycle with
    | unmounted =>
      rw [course, hl] at hend
      cases hend
    | active => exact (course_eq_ok_iff_work hs hdepth).mpr ⟨hl, executed, m, hw, rfl⟩

/-- A strict session finds fault with all that leaves more than one slot. -/
theorem ending_eq_unbalanced_iff (hstrict : s.config.strictStack = true) (H : Host δ ν β)
    (mem : Bytes) (depth : Nat) :
    ending (apply H mem) s = .error (.unbalancedStack depth) ↔
      course H mem s = .ok depth ∧ 1 < depth := by
  rw [ending_apply]
  cases hcourse : course H mem s with
  | error e =>
    have he : e ≠ .unbalancedStack depth := fun he =>
      course_ne_unbalanced H mem s depth (he ▸ hcourse)
    exact ⟨fun h => absurd (Except.error.inj h) he, fun h => by cases h.1⟩
  | ok n =>
    show s.config.verdict n = _ ↔ _
    by_cases hn : 1 < n
    · rw [Config.verdict_of_strict hstrict hn]
      constructor
      · rintro h
        cases h
        exact ⟨rfl, hn⟩
      · rintro ⟨h, -⟩
        cases h
        rfl
    · rw [Config.verdict_of_le (Nat.not_lt.mp hn)]
      constructor
      · nofun
      · rintro ⟨h, hd⟩
        cases h
        exact absurd hd hn

/-- A strict session and one that is not, with the same limit. -/
theorem ending_of_strict (hlimit : c.maxStackDepth = c'.maxStackDepth)
    (hstrict : c.strictStack = true) (hrelaxed : c'.strictStack = false) :
    (∀ depth, ending (apply H mem) (s.configured c) = .error (.unbalancedStack depth) ↔
      ending (apply H mem) (s.configured c') = .ok () ∧ ∃ executed s',
        run H mem (s.configured c') = .ok executed s' ∧ s'.stack.depth = depth ∧ 1 < depth) ∧
    ((∀ depth, ending (apply H mem) (s.configured c) ≠ .error (.unbalancedStack depth)) →
      ending (apply H mem) (s.configured c) = ending (apply H mem) (s.configured c')) := by
  have hcourse := (sameEffects_of_limit hlimit H mem s).2
  have hunbalanced (depth : Nat) :=
    ending_eq_unbalanced_iff (s := s.configured c) hstrict H mem depth
  refine ⟨fun depth => (hunbalanced depth).trans ?_, fun hbalanced => ?_⟩
  · rw [hcourse]
    constructor
    · rintro ⟨h, hd⟩
      obtain ⟨hend, executed, s', hrun, hs'⟩ := (course_eq_ok_iff hrelaxed rfl hd).mp h
      exact ⟨hend, executed, s', hrun, hs', hd⟩
    · rintro ⟨hend, executed, s', hrun, hs', hd⟩
      exact ⟨(course_eq_ok_iff hrelaxed rfl hd).mpr ⟨hend, executed, s', hrun, hs'⟩, hd⟩
  · rw [ending_apply, ending_apply, ← hcourse]
    cases h : course H mem (s.configured c) with
    | error e => rfl
    | ok depth =>
      have hd : depth ≤ 1 := Nat.not_lt.mp fun hd =>
        hbalanced depth ((hunbalanced depth).mpr ⟨h, hd⟩)
      show c.verdict depth = c'.verdict depth
      rw [Config.verdict_of_le hd, Config.verdict_of_le hd]

/-- Whatever the host and the programs. An application that does not run out of room does the same,
and ends the same, with more room or without a limit. One that does has made the first of the calls
that are made without a limit; and no stack ever holds more slots than it may. What is noted, and
whether the session is strict, makes no difference to what is done. A strict session differs in the
verdict on a run that has left more than one slot, and in nothing else. -/
theorem effects_of_apply (H : Host δ ν β) (mem : Bytes) (s : Session δ ν β τ) :
    (∀ (c : Config) (limit : Nat) (wider : Option Nat), (∀ n, wider = some n → limit ≤ n) →
      ending (apply H mem) (s.configured (c.within (some limit))) ≠ .error (.stackOverflow limit) →
        SameEffects H mem (s.configured (c.within wider)) (s.configured (c.within (some limit))) ∧
        ending (apply H mem) (s.configured (c.within wider))
          = ending (apply H mem) (s.configured (c.within (some limit)))) ∧
    (∀ (c : Config) (limit : Nat),
      (s.configured (c.within (some limit))).calls H mem
        <+: (s.configured (c.within none)).calls H mem ∧
      (∀ execution ∈ executions H mem (s.configured (c.within (some limit))),
        execution.1.stack.depth ≤ limit ∧
          (Step.after (Machine.exec H mem execution.2) execution.1).stack.depth ≤ limit) ∧
      (Step.after (run H mem) (s.configured (c.within (some limit)))).stack.depth ≤ limit ∧
      ∀ {α : Type} {x : EStateM Error (Stack ν) α}, Stack.Basic x → ∀ stack : Stack ν,
        stack.limit = some limit → stack.depth ≤ limit → (Step.after x stack).depth ≤ limit) ∧
    ∀ c c' : Config, c.maxStackDepth = c'.maxStackDepth →
      SameEffects H mem (s.configured c) (s.configured c') ∧
      (c.strictStack = c'.strictStack →
        ending (apply H mem) (s.configured c) = ending (apply H mem) (s.configured c')) ∧
      (c.strictStack = true → c'.strictStack = false →
        (∀ depth, ending (apply H mem) (s.configured c) = .error (.unbalancedStack depth) ↔
          ending (apply H mem) (s.configured c') = .ok () ∧ ∃ executed s',
            run H mem (s.configured c') = .ok executed s' ∧ s'.stack.depth = depth ∧ 1 < depth) ∧
        ((∀ depth, ending (apply H mem) (s.configured c) ≠ .error (.unbalancedStack depth)) →
          ending (apply H mem) (s.configured c) = ending (apply H mem) (s.configured c'))) := by
  refine ⟨fun c limit wider hwider hroom => ?_, fun c limit => ⟨?_, fun _ => depth_le_of_executions,
    depth_le_of_run H mem s c limit, fun hx stack => ?_⟩, fun c c' hlimit => ⟨?_, fun hstrict => ?_,
    ending_of_strict hlimit⟩⟩
  · have hle : Stack.AtMost (some limit) wider := fun u hu => ⟨limit, rfl, hwider u hu⟩
    have hroom (l : Nat) (hl : some limit = some l) :
        ending (apply H mem) (s.configured (c.within (some limit)))
          ≠ .error (.stackOverflow l) := Option.some.inj hl ▸ hroom
    obtain ⟨heffects, hcourse⟩ :=
      sameEffects_of_room (c := c.within wider) hle fun l hl _ => hroom l hl
    exact ⟨heffects, ending_of_course rfl hcourse⟩
  · exact calls_prefix (c := c.within none) nofun
  · exact (Step.leads_iff.mp hx.staysWithin stack).depth_le
  · exact (sameEffects_of_limit hlimit H mem s).1
  · exact ending_of_course hstrict (sameEffects_of_limit hlimit H mem s).2

/-! ## A stack without room -/

open Document (host)

/-- A session whose first node is a button, with a range queued. -/
def onLimits : Session (Document ListenerId) NodeId Nat Unit :=
  Step.after (queue ⟨0, 12⟩) (start (Document.withSeed "main" "button") ⟨0⟩ .standard)

/-- One request has led there. -/
theorem history_onLimits : History (host id) (fun _ _ => False)
    (start (Document.withSeed "main" "button") ⟨0⟩ .standard) [(.queue ⟨0, 12⟩, .ok none)]
    onLimits :=
  .serve .start (.queue ⟨0, 12⟩)

/-- A program that makes a text and leaves it on the stack. -/
def oneText : Bytes :=
  (Instr.createText 0 0).encode ++ []

/-- What a run of the program does. -/
theorem work_onLimits (limit : Option Nat) :
    work (host id) oneText (onLimits.configured (.within .standard limit)) = (do
      Machine.onStack (Stack.push (some ⟨1⟩))
      Machine.exec (host id) oneText (.createText 0 0)
      return 1) := by
  have hrun : (Machine.runAll (host id) oneText false [⟨0, 12⟩] :
      Machine.Act (Document ListenerId) NodeId Nat Unit Nat)
        = (Machine.exec (host id) oneText (.createText 0 0) >>= fun _ => pure 1) := by
    show (Machine.runFrom (host id) oneText false ⟨0, (Instr.createText 0 0).encode ++ []⟩ 0 >>=
      fun n => pure (n + 0)) = _
    rw [Machine.runFrom_encode, Machine.runFrom_nil, bind_assoc]
    rfl
  exact congrArg (fun x => Machine.onStack (Stack.push (some ⟨1⟩)) >>= fun _ => x) hrun

/-- The text that is made finds no room above the first slot if there is room for one only. With
room for two slots it is left over, so it is without a limit, as the session has come up, and a
session that is not strict accepts that. -/
theorem effects_onLimits :
    onLimits.configured .standard = onLimits ∧
      ending (apply (host id) oneText) (onLimits.configured (.within .standard (some 1)))
        = .error (.stackOverflow 1) ∧
      ending (apply (host id) oneText) (onLimits.configured .standard)
        = .error (.unbalancedStack 2) ∧
      ending (apply (host id) oneText) (onLimits.configured ⟨false, true, none⟩) = .ok () ∧
      (onLimits.configured (.within .standard (some 1))).calls (host id) oneText
        <+: (onLimits.configured .standard).calls (host id) oneText := by
  have hone : course (host id) oneText (onLimits.configured (.within .standard (some 1)))
      = .error (.stackOverflow 1) := by
    rw [course_of_active rfl (List.cons_ne_nil _ _), work_onLimits]
    rfl
  have htwo : course (host id) oneText (onLimits.configured (.within .standard (some 2)))
      = .ok 2 := by
    rw [course_of_active rfl (List.cons_ne_nil _ _), work_onLimits]
    rfl
  have hleft : ending (apply (host id) oneText) (onLimits.configured (.within .standard (some 2)))
      = .error (.unbalancedStack 2) := by
    rw [ending_apply, htwo]
    rfl
  -- the other endings follow from the one with room for two slots
  obtain ⟨hroom, hlimit, hsame⟩ := effects_of_apply (host id) oneText onLimits
  have hwider := hroom .standard 2 none nofun fun h => by cases hleft.symm.trans h
  have hstandard : ending (apply (host id) oneText) (onLimits.configured .standard)
      = .error (.unbalancedStack 2) := hwider.2.trans hleft
  have hrelaxed := (hsame .standard ⟨false, true, none⟩ rfl).2.2 rfl rfl
  exact ⟨configured_of_history history_onLimits, ending_of_course_error hone, hstandard,
    ((hrelaxed.1 2).mp hstandard).1, (hlimit .standard 1).1⟩

end Session

end TreeEdit
