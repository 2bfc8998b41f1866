import TreeEdit.Proofs.Listener.Leftover
import TreeEdit.Proofs.Machine.Leading
import TreeEdit.Proofs.Session.Refusal

/-!
# What a session leaves on its nodes when it ends

Seen from its scene, all that a session does is done by steps of its registry
(`Machine.parts_served`). So the handlers of a session are accounted for at any time
(`Hosted.kept`), and what is left of them after the session has ended was to be taken off before,
which the document refused (`refused_of_left`).
-/

namespace TreeEdit

open Step (Chains Leads)

variable {δ ν β η κ τ α : Type} {V : HandlerView δ ν β η} {H : Host δ ν β}
  {refuse : Nat → Option HostError}

theorem Scene.call_served (hV : V.Faithful H) {k : Reply} {c : HostCall ν β k} (hc : c.Mute) :
    Leads (Scene.Served V H refuse)
      (Scene.call (H.watched refuse) c : Scene.Act (Watched δ ν β) ν β τ _) := by
  intro s
  rw [Scene.ends_call]
  exact (hV.watched_mute refuse c hc s.doc).mono (fun _ w hw => .single (.edit w hw.1 hw.2))
    fun _ w hw => .single (.edit w hw.1 hw.2)

namespace Machine

variable {x : Scene.Act (Watched δ ν β) ν β τ α}

/-- The scene has gone from the one machine to the other by steps of its registry. -/
def Served (V : HandlerView δ ν β η) (H : Host δ ν β) (refuse : Nat → Option HostError)
    (m m' : Machine (Watched δ ν β) ν β τ) : Prop :=
  Scene.Served V H refuse m.toScene m'.toScene

theorem onScene_served (hx : Leads (Scene.Served V H refuse) x) :
    Leads (Served V H refuse) (onScene x) :=
  Step.leads_onPart hx fun _ _ h => h

/-- The parts of instructions are steps of the registry, or leave it alone. -/
theorem parts_served (hV : V.Faithful H) :
    Parts (H.watched refuse) (Served V H refuse : Machine (Watched δ ν β) ν β τ → _ → Prop) where
  chains := ⟨fun _ => .refl, fun h h' => Relation.ReflTransGen.trans h h'⟩
  stack _ _ := .refl
  call _ hc := onScene_served (Scene.call_served hV hc)
  attach n t handles := onScene_served (Step.leads_iff.mpr fun _ => .single (.attach n t handles))
  update key t handles :=
    onScene_served (Step.leads_iff.mpr fun _ => .single (.update key t handles))
  detach n t := onScene_served (Step.leads_iff.mpr fun _ => .single (.detach n t))

theorem runAll_served (hV : V.Faithful H) (mem : Binary.Bytes) (traced : Bool)
    (spans : List Span) :
    Leads (Served V H refuse : Machine (Watched δ ν β) ν β τ → _ → Prop)
      (runAll (H.watched refuse) mem traced spans) :=
  runAll_leads (parts_served hV).deeds (fun _ _ _ => .refl) (fun _ _ _ => .single (.note _)) spans

end Machine

namespace Session

open Binary (Bytes)
open Scene (Accounted LeavesRefused StaysAccounted)

variable {s s' : Session (Watched δ ν β) ν β τ}

/-! ## Steps that do not end a session -/

/-- The scene has gone from the one session to the other by steps of its registry, and the session
has not ended. -/
structure Works (V : HandlerView δ ν β η) (H : Host δ ν β) (refuse : Nat → Option HostError)
    (s s' : Session (Watched δ ν β) ν β τ) : Prop where
  served : Scene.Served V H refuse s.toScene s'.toScene
  lifecycle : s'.lifecycle = s.lifecycle

theorem chains_works :
    Chains (Works V H refuse : Session (Watched δ ν β) ν β τ → _ → Prop) where
  refl _ := ⟨.refl, rfl⟩
  trans h h' := ⟨h.served.trans h'.served, h'.lifecycle.trans h.lifecycle⟩

theorem onMachine_works {x : Machine.Act (Watched δ ν β) ν β τ α}
    (hx : Leads (Machine.Served V H refuse) x) : Leads (Works V H refuse) (onMachine x) :=
  Step.leads_onPart hx fun _ _ h => ⟨h, rfl⟩

theorem ensureActive_works :
    Leads (Works V H refuse) (ensureActive : Act (Watched δ ν β) ν β τ Unit) := fun s =>
  ends_ensureActive (fun _ => chains_works.refl s) (chains_works.refl s)

theorem queue_works (span : Span) :
    Leads (Works V H refuse) (queue span : Act (Watched δ ν β) ν β τ Unit) :=
  ensureActive_works.bind chains_works fun _ => Step.leads_modify fun _ => ⟨.refl, rfl⟩

theorem addString_works (text : String) (id : UInt32) :
    Leads (Works V H refuse) (addString text id : Act (Watched δ ν β) ν β τ Unit) :=
  ensureActive_works.bind chains_works fun _ => Step.leads_modify fun _ => ⟨.refl, rfl⟩

theorem installTrampoline_works (trampoline : τ) :
    Leads (Works V H refuse)
      (installTrampoline trampoline : Act (Watched δ ν β) ν β τ Unit) :=
  ensureActive_works.bind chains_works fun _ => onMachine_works <| Machine.onScene_served <|
    Step.leads_modify fun _ => .single (.install trampoline)

theorem settle_works (config : Config) (executed : Nat) :
    Leads (Works V H refuse) (settle config executed : Act (Watched δ ν β) ν β τ Nat) := by
  intro s
  rw [settle, Step.ends_bind, Step.ends_get]
  dsimp only
  split
  · exact chains_works.refl s
  · exact chains_works.refl s

theorem run_works (hV : V.Faithful H) (mem : Bytes) :
    Leads (Works V H refuse) (run (H.watched refuse) mem : Act (Watched δ ν β) ν β τ Nat) := by
  rw [run_eq]
  refine (Step.leads_get chains_works).bind chains_works fun s => ?_
  refine (onMachine_works ((Machine.parts_served hV).onStack _)).bind chains_works fun _ => ?_
  refine (onMachine_works (Machine.runAll_served hV mem _ _)).bind chains_works fun executed => ?_
  exact settle_works _ executed

theorem apply_works (hV : V.Faithful H) (mem : Bytes) :
    Leads (Works V H refuse)
      (apply (H.watched refuse) mem : Act (Watched δ ν β) ν β τ Unit) := by
  rw [Step.leads_iff]
  intro s
  cases ha : s.lifecycle with
  | unmounted =>
    rw [Step.after, apply, Step.bind_error (ensureActive_of_unmounted ha)]
    exact chains_works.refl s
  | active =>
    by_cases hp : s.pending = []
    · rw [Step.after, apply_of_idle ha hp]
      exact chains_works.refl s
    · obtain ⟨notice, hafter⟩ := exists_after_apply (H := H.watched refuse) ha hp mem
      rw [hafter]
      exact chains_works.trans (Step.leads_iff.mp (run_works hV mem) s)
        ⟨.single (.note notice), rfl⟩

/-! ## Sessions between two steps -/

/-- The session can come up on a host whose watch refuses what `refuse` says. It starts where no
handler is one of its own. -/
inductive Hosted (V : HandlerView δ ν β η) (H : Host δ ν β) (refuse : Nat → Option HostError) :
    Session (Watched δ ν β) ν β τ → Prop
  | start {w : Watched δ ν β} (hw : ∀ n x id, ¬ V.Holds w.doc n x id) (root : ν)
      (config : Config) : Hosted V H refuse (start w root config)
  | queue {s : Session (Watched δ ν β) ν β τ} (h : Hosted V H refuse s) (span : Span) :
      Hosted V H refuse (Step.after (queue span) s)
  | apply {s : Session (Watched δ ν β) ν β τ} (h : Hosted V H refuse s) (mem : Bytes) :
      Hosted V H refuse (Step.after (apply (H.watched refuse) mem) s)
  | addString {s : Session (Watched δ ν β) ν β τ} (h : Hosted V H refuse s) (text : String)
      (id : UInt32) : Hosted V H refuse (Step.after (addString text id) s)
  | installTrampoline {s : Session (Watched δ ν β) ν β τ} (h : Hosted V H refuse s)
      (trampoline : τ) : Hosted V H refuse (Step.after (installTrampoline trampoline) s)
  | unmount {s : Session (Watched δ ν β) ν β τ} (h : Hosted V H refuse s) :
      Hosted V H refuse (Step.after (unmount (H.watched refuse)) s)
  /-- Anything that others do to the document. They install no handler of the session. -/
  | edit {s : Session (Watched δ ν β) ν β τ} (h : Hosted V H refuse s) {w : Watched δ ν β}
      (hcalls : s.doc.GoesOn w) (hcame : V.NoneCame s.doc.doc w.doc) :
      Hosted V H refuse { s with doc := w }

/-- What holds between two steps. -/
structure Kept (V : HandlerView δ ν β η) (refuse : Nat → Option HostError)
    (s : Session (Watched δ ν β) ν β τ) : Prop where
  accounted : Accounted V refuse s.toScene
  ended : s.lifecycle = .unmounted → ∀ place, s.listeners.entries.get? place = none

theorem Kept.works (hV : V.Faithful H) (h : Kept V refuse s) (hw : Works V H refuse s s')
    (hover : s.lifecycle = .unmounted → s'.listeners = s.listeners) : Kept V refuse s' := by
  refine ⟨(Scene.accounted_of_served hV h.accounted hw.served).accounted, fun hl => ?_⟩
  rw [hw.lifecycle] at hl
  rw [hover hl]
  exact h.ended hl

/-- No entry outlasts the session. -/
theorem unmount_accounts (hV : V.Faithful H) (h : Kept V refuse s) :
    StaysAccounted V refuse s.toScene (Step.after (unmount (H.watched refuse)) s).toScene ∧
      ∀ place,
        (Step.after (unmount (H.watched refuse)) s).listeners.entries.get? place = none := by
  refine Step.Ends.after (P := fun s' : Session (Watched δ ν β) ν β τ =>
    StaysAccounted V refuse s.toScene s'.toScene ∧
      ∀ place, s'.listeners.entries.get? place = none) ?_
  cases ha : s.lifecycle with
  | unmounted =>
    rw [Step.Ends, unmount, Step.bind_error (ensureActive_of_unmounted ha)]
    exact ⟨h.accounted.refl, h.ended ha⟩
  | active =>
    rw [unmount, Step.ends_bind, Step.Ends, ensureActive_of_active ha]
    show Step.Ends _ s _ _
    rw [Step.ends_bind, Step.ends_modify, Step.ends_bind, Step.ends_get]
    dsimp only
    rw [Step.ends_bind, Step.ends_outcome, onScene, ends_onMachine, Machine.ends_onScene]
    have noted (notice : Notice) (c : Scene (Watched δ ν β) ν β τ)
        (hc : StaysAccounted V refuse s.toScene c ∧
          ∀ place, c.listeners.entries.get? place = none) :
        StaysAccounted V refuse s.toScene { c with journal := c.journal.push notice } ∧
          ∀ place, c.listeners.entries.get? place = none :=
      ⟨hc.1.trans (Scene.accounted_of_serves hV hc.1.accounted (.note notice)), hc.2⟩
    exact (Scene.teardown_accounts hV h.accounted).mono (fun _ c hc => noted _ c hc)
      fun _ c hc => noted _ c hc

theorem Hosted.kept (hV : V.Faithful H) (h : Hosted V H refuse s) : Kept V refuse s := by
  induction h with
  | start hw root config => exact ⟨Scene.accounted_ofDoc hw, nofun⟩
  | @queue s h span ih =>
    refine ih.works hV (Step.leads_iff.mp (queue_works span) s) fun ha => ?_
    rw [Step.after, Session.queue, Step.bind_error (ensureActive_of_unmounted ha)]
  | @apply s h mem ih =>
    refine ih.works hV (Step.leads_iff.mp (apply_works hV mem) s) fun ha => ?_
    rw [Step.after, Session.apply, Step.bind_error (ensureActive_of_unmounted ha)]
  | @addString s h text id ih =>
    refine ih.works hV (Step.leads_iff.mp (addString_works text id) s) fun ha => ?_
    rw [Step.after, Session.addString, Step.bind_error (ensureActive_of_unmounted ha)]
  | @installTrampoline s h trampoline ih =>
    refine ih.works hV (Step.leads_iff.mp (installTrampoline_works trampoline) s) fun ha => ?_
    rw [Step.after, Session.installTrampoline, Step.bind_error (ensureActive_of_unmounted ha)]
  | @unmount s h ih =>
    obtain ⟨hstays, hentries⟩ := unmount_accounts hV ih
    exact ⟨hstays.accounted, fun _ => hentries⟩
  | @edit s h w hcalls hcame ih =>
    have hw : Works V H refuse s { s with doc := w } := ⟨.single (.edit w hcalls hcame), rfl⟩
    exact ih.works hV hw fun _ => rfl

/-! ## What is left in the end -/

open Document (host)

variable {wrap : ListenerId → κ} {owner : κ → Option ListenerId}

/-- Listeners may have been attached and detached in any order, and the host may have refused any
call. If it lets through the calls of a teardown, or of the end of a session, then each handler of
the session that is left belongs to a revoked listener, and was to be taken off before, which was
refused. If no removal was refused before, none is left; in a document that has no other handlers
there are none at all. -/
theorem refused_of_left (hV : V.Faithful H) (howner : ∀ id, owner (wrap id) = some id)
    (refuse : Nat → Option HostError) :
    (∀ (w : Watched δ ν β) (c : Scene (Watched δ ν β) ν β τ),
      (∀ n x id, ¬ V.Holds w.doc n x id) → Scene.Served V H refuse (.ofDoc w) c →
      Watched.LetThrough refuse c.doc (Step.after (Scene.teardown (H.watched refuse)) c).doc →
      LeavesRefused V refuse c (Step.after (Scene.teardown (H.watched refuse)) c)) ∧
    (∀ s : Session (Watched δ ν β) ν β τ, Hosted V H refuse s →
      Watched.LetThrough refuse s.doc (Step.after (unmount (H.watched refuse)) s).doc →
      LeavesRefused V refuse s.toScene (Step.after (unmount (H.watched refuse)) s).toScene) ∧
    ∀ s : Session (Watched (Document κ) NodeId Nat) NodeId Nat τ,
      Hosted (Document.view owner) (host wrap) refuse s →
      Watched.LetThrough refuse s.doc
        (Step.after (unmount ((host wrap).watched refuse)) s).doc →
      (∀ n binding, ¬ s.doc.Refused refuse n binding) →
      (∀ n, ∀ x ∈ (Step.after (unmount ((host wrap).watched refuse)) s).doc.doc.handlers n,
        owner x.callback ≠ none) →
      ∀ n, (Step.after (unmount ((host wrap).watched refuse)) s).doc.doc.handlerCount n = 0 := by
  refine ⟨fun w c hw hc hlet => ?_, fun s hs hlet => ?_, fun s hs hlet hnone hown n => ?_⟩
  · have hstays := Scene.accounted_of_served hV (Scene.accounted_ofDoc hw) hc
    obtain ⟨hdone, hentries⟩ := Step.Ends.after
      (P := fun c' => StaysAccounted V refuse c c' ∧
        ∀ place, c'.listeners.entries.get? place = none)
      (Scene.teardown_accounts hV hstays.accounted)
    exact hdone.leavesRefused hentries hlet
  · obtain ⟨hdone, hentries⟩ := unmount_accounts hV (hs.kept hV)
    exact hdone.leavesRefused hentries hlet
  · have hdoc := Document.faithful_host howner
    obtain ⟨hdone, hentries⟩ := unmount_accounts hdoc (hs.kept hdoc)
    have hleft := (hdone.leavesRefused hentries hlet).nothing hnone
    rw [Document.handlerCount_eq_length, List.length_eq_zero_iff,
      List.eq_nil_iff_forall_not_mem]
    intro x hx
    obtain ⟨id, hid⟩ := Option.ne_none_iff_exists'.mp (hown n x hx)
    exact hleft n x id ⟨hx, hid⟩

/-! ## A removal that is refused -/

/-- A session whose first node is a button, with a range of `len` bytes queued. No call has been
made yet. -/
def onWatchedButton (len : UInt32) :
    Session (Watched (Document ListenerId) NodeId Nat) NodeId Nat Unit :=
  Step.after (queue ⟨0, len⟩) (Step.after (addString "click" 0)
    (start ⟨Document.withSeed "main" "button", #[]⟩ ⟨0⟩ .standard))

/-- A program that attaches a listener and detaches it again. -/
def attachDetach : Bytes :=
  (Instr.newListener 0 1 2).encode ++ ((Instr.removeListener 0).encode ++ [])

/-- A watch that refuses to take the listener off. -/
def holdFast : Nat → Option HostError :=
  Host.refusing 2 (.stated "busy")

/-- The session after the program, of which the last call was refused. -/
def heldFast : Session (Watched (Document ListenerId) NodeId Nat) NodeId Nat Unit :=
  Step.after (apply ((host id).watched holdFast) attachDetach) (onWatchedButton 24)

theorem onWatchedButton_hosted (refuse : Nat → Option HostError) (len : UInt32) :
    Hosted (Document.view some) (host id) refuse (onWatchedButton len) := by
  let w : Watched (Document ListenerId) NodeId Nat := ⟨Document.withSeed "main" "button", #[]⟩
  have hbare (n : NodeId) (x : Handler ListenerId) (id : ListenerId) :
      ¬ (Document.view some).Holds w.doc n x id := by
    rintro ⟨hx, -⟩
    match n with
    | ⟨0⟩ => cases hx
    | ⟨1⟩ => cases hx
    | ⟨_ + 2⟩ => cases hx
  have hstart : Hosted (Document.view some) (host id) refuse
      (start w ⟨0⟩ .standard : Session _ NodeId Nat Unit) := .start hbare ⟨0⟩ .standard
  exact (hstart.addString "click" 0).queue ⟨0, len⟩

theorem unmount_heldFast :
    heldFast.doc.calls.size = 2 ∧
      ∃ s', unmount ((host id).watched holdFast) heldFast = .ok () s' ∧
        s'.doc.doc.handlers ⟨1⟩ = [⟨"click", 1, ⟨0⟩⟩] := by
  let H : Host (Watched (Document ListenerId) NodeId Nat) NodeId Nat := (host id).watched holdFast
  let m₀ := (onWatchedButton 24).toMachine.withSlots [some ⟨1⟩]
  obtain ⟨m, hm, hsize, s', hs', hhandlers⟩ : ∃ m,
      Machine.runFrom H attachDetach false ⟨0, attachDetach⟩ 0 m₀
        = .error (.host (.stated "busy")) m ∧
      m.doc.calls.size = 2 ∧
      ∃ s', unmount H ({ onWatchedButton 24 with toMachine := m }.closed
          (.interrupted 1 (.host (.stated "busy")))) = .ok () s' ∧
        s'.doc.doc.handlers ⟨1⟩ = [⟨"click", 1, ⟨0⟩⟩] := by
    refine ⟨?_, ?_, ?_, ?_⟩
    rotate_left
    · show Machine.runFrom H attachDetach false ⟨0, (Instr.newListener 0 1 2).encode ++
        ((Instr.removeListener 0).encode ++ [])⟩ 0 m₀ = _
      rw [Machine.runFrom_encode, Machine.runFrom_encode]
      rfl
    · rfl
    · exact ⟨_, rfl, rfl⟩
  have hall : Machine.runAll H attachDetach false [⟨0, 24⟩] m₀
      = .error (.host (.stated "busy")) m := Step.bind_error hm
  have hrun : run H attachDetach (onWatchedButton 24)
      = .error (.host (.stated "busy")) { onWatchedButton 24 with toMachine := m } :=
    run_of_runAll_error rfl hall
  have hheld : heldFast = { onWatchedButton 24 with toMachine := m }.closed
      (.interrupted 1 (.host (.stated "busy"))) := by
    rw [heldFast, Step.after, apply_of_active rfl (List.cons_ne_nil _ _), hrun]
    rfl
  rw [hheld]
  exact ⟨hsize, s', hs', hhandlers⟩

theorem letThrough_holdFast {w : Watched δ ν β} (hw : 2 ≤ w.calls.size) (w' : Watched δ ν β) :
    Watched.LetThrough holdFast w w' := by
  intro i hi _
  rw [holdFast, Host.refusing, if_neg (by omega)]

/-- The button with a registry that attached the listener and detached it in vain. -/
def registryHeldFast : Scene (Watched (Document ListenerId) NodeId Nat) NodeId Nat Unit :=
  Step.after (Scene.detach ((host id).watched holdFast) ⟨1⟩ "click")
    (Step.after (Scene.attach ((host id).watched holdFast) ⟨1⟩ "click" (1, 2))
      (.ofDoc ⟨Document.withSeed "main" "button", #[]⟩))

/-- The session ends without any refusal, and still its handler is on the button. So it is with the
teardown of the registry. -/
theorem handler_left_behind :
    (Hosted (Document.view some) (host id) holdFast heldFast ∧
      ∃ s', unmount ((host id).watched holdFast) heldFast = .ok () s' ∧
        Watched.LetThrough holdFast heldFast.doc s'.doc ∧
        (Document.view some).Holds s'.doc.doc ⟨1⟩ ⟨"click", 1, ⟨0⟩⟩ ⟨0⟩ ∧
        s'.doc.doc.handlerCount ⟨1⟩ = 1) ∧
    Scene.Served (Document.view some) (host id) holdFast
        (.ofDoc ⟨Document.withSeed "main" "button", #[]⟩) registryHeldFast ∧
      ∃ c', Scene.teardown ((host id).watched holdFast) registryHeldFast = .ok () c' ∧
        Watched.LetThrough holdFast registryHeldFast.doc c'.doc ∧
        c'.doc.doc.handlerCount ⟨1⟩ = 1 := by
  have hserved : Scene.Served (Document.view some) (host id) holdFast
      (.ofDoc ⟨Document.withSeed "main" "button", #[]⟩) registryHeldFast :=
    .tail (.single (.attach (⟨1⟩ : NodeId) "click" (1, 2))) (.detach (⟨1⟩ : NodeId) "click")
  have hcalls : 2 ≤ registryHeldFast.doc.calls.size := by decide
  refine ⟨?_, hserved, _, rfl, letThrough_holdFast hcalls _, rfl⟩
  obtain ⟨hsize, s', hs', hhandlers⟩ := unmount_heldFast
  have hholds : (Document.view some).Holds s'.doc.doc ⟨1⟩ ⟨"click", 1, ⟨0⟩⟩ ⟨0⟩ := by
    refine ⟨?_, rfl⟩
    show _ ∈ s'.doc.doc.handlers ⟨1⟩
    rw [hhandlers]
    exact List.mem_singleton_self _
  refine ⟨(onWatchedButton_hosted holdFast 24).apply attachDetach, s', hs',
    letThrough_holdFast hsize.ge s'.doc, hholds, ?_⟩
  rw [Document.handlerCount_eq_length, hhandlers]
  rfl

/-- The listener of the handler that is left is revoked, and its removal was refused. If nothing is
refused, the listener of the same session is taken off when it ends. -/
theorem refused_of_left_heldFast :
    Hosted (Document.view some) (host id) holdFast heldFast ∧
      (∃ s', unmount ((host id).watched holdFast) heldFast = .ok () s' ∧
        s'.listeners.Revoked ⟨0⟩ ∧ heldFast.doc.Refused holdFast ⟨1⟩ 1) ∧
      ∀ n, (Step.after (unmount ((host id).watched fun _ => none))
        (Step.after (apply ((host id).watched fun _ => none) attachDetach)
          (onWatchedButton 16))).doc.doc.handlerCount n = 0 := by
  have howner (id : ListenerId) : some id = some id := rfl
  have hdoc : (Document.view some).Faithful (host id) := Document.faithful_host howner
  have hhosted : Hosted (Document.view some) (host id) holdFast heldFast :=
    (onWatchedButton_hosted holdFast 24).apply attachDetach
  refine ⟨hhosted, ?_, ?_⟩
  · obtain ⟨hsize, s', hs', hhandlers⟩ := unmount_heldFast
    have hafter : Step.after (unmount ((host id).watched holdFast)) heldFast = s' := by
      rw [Step.after, hs']
    have hleft := (refused_of_left (τ := Unit) hdoc howner holdFast).2.1 heldFast hhosted
      (letThrough_holdFast hsize.ge _)
    rw [hafter] at hleft
    have hx : (⟨"click", 1, ⟨0⟩⟩ : Handler ListenerId) ∈ s'.doc.doc.handlers ⟨1⟩ := by
      rw [hhandlers]
      exact List.mem_singleton_self _
    exact ⟨s', hs', hleft.refused ⟨1⟩ _ ⟨0⟩ ⟨hx, rfl⟩⟩
  · refine (refused_of_left (τ := Unit) hdoc howner fun _ => none).2.2 _
      ((onWatchedButton_hosted (fun _ => none) 16).apply attachDetach) (fun _ _ _ => rfl) ?_ ?_
    · rintro n binding ⟨i, t, -, hrefuse⟩
      exact hrefuse rfl
    · intro n x hx
      exact nofun

end Session

end TreeEdit
