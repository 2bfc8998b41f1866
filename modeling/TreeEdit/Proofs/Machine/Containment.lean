import TreeEdit.Proofs.Document.Building
import TreeEdit.Proofs.Document.Reachable
import TreeEdit.Proofs.Machine.Depth
import TreeEdit.Proofs.Machine.Following
import TreeEdit.Proofs.Machine.Raising

/-!
# What an instruction has done when it fails

An instruction first looks things up, which at most uses slots of the stack up (`Looks`). Then it
acts, and while it acts it fails only where the document refuses (`Strives`). Only an instruction
that creates a node has something to do after that: there may be no room for the node. So what a
failed instruction has done can be told from its error (`Contained`, `exec_contains`).
-/

namespace TreeEdit

open Step (Raises)

variable {δ ν β τ α γ : Type} {H : Host δ ν β} {mem : Binary.Bytes}

namespace Machine

/-! ## Looking things up, and acting -/

/-- The machines differ in their stacks at most. -/
structure SameButStack (m m' : Machine δ ν β τ) : Prop where
  scene : m'.toScene = m.toScene
  strings : m'.strings = m.strings

theorem sameButStack_refl (m : Machine δ ν β τ) : m.SameButStack m :=
  ⟨rfl, rfl⟩

/-- The step only uses slots up, and fails only for not finding something. -/
def Looks (x : Act δ ν β τ α) : Prop :=
  ∀ m, Step.Ends x m (fun _ m' => m.SameButStack m') fun e m' => e.OfLookup ∧ m.SameButStack m'

/-- The step stores no text, and fails only where the document refuses. -/
def Strives (x : Act δ ν β τ α) : Prop :=
  ∀ m, Step.Ends x m (fun _ m' => m'.strings = m.strings)
    fun e m' => (∃ r, e = .host r) ∧ m'.strings = m.strings

/-- What has been done to the machine `m` when an instruction fails. -/
inductive Contained (H : Host δ ν β) (m : Machine δ ν β τ) : Error → Machine δ ν β τ → Prop
  /-- Nothing, because something has not been found. -/
  | lookup {e : Error} {m' : Machine δ ν β τ} : e.OfLookup → m.SameButStack m' → Contained H m e m'
  /-- Nothing, because there was no room for what was found. -/
  | full {limit : Nat} {m' : Machine δ ν β τ} :
    m.SameButStack m' → Contained H m (.stackOverflow limit) m'
  /-- A node has been made, and there was no room for it. -/
  | created {limit : Nat} {m' : Machine δ ν β τ} (c : HostCall ν β .node) (node : ν) (d : δ) :
    H.perform c m.doc = .ok node d → SameButStack { m with doc := d } m' →
      Contained H m (.stackOverflow limit) m'
  /-- Whatever comes before the call that the document refuses, but no text has been stored. -/
  | refused {r : HostError} {m' : Machine δ ν β τ} :
    m'.strings = m.strings → Contained H m (.host r) m'

/-- When the step fails, what it has done can be told from the error. -/
def Contains (H : Host δ ν β) (x : Act δ ν β τ α) : Prop :=
  ∀ m, Step.Ends x m (fun _ _ => True) (Contained H m)

/-! ### Laws -/

theorem Contained.of_sameButStack {m m₁ m' : Machine δ ν β τ} {e : Error}
    (h : Contained H m₁ e m') (hm : m.SameButStack m₁) : Contained H m e m' := by
  obtain ⟨s, stack, strings⟩ := m
  obtain ⟨s', stack', strings'⟩ := m₁
  obtain ⟨rfl, rfl⟩ := hm
  cases h with
  | lookup he h => exact .lookup he ⟨h.scene, h.strings⟩
  | full h => exact .full ⟨h.scene, h.strings⟩
  | created c node d hc h => exact .created c node d hc ⟨h.scene, h.strings⟩
  | refused h => exact .refused h

/-- What is looked up first does not count. -/
theorem Looks.bind {x : Act δ ν β τ α} {f : α → Act δ ν β τ γ} (hx : Looks x)
    (hf : ∀ a, Contains H (f a)) : Contains H (x >>= f) := by
  intro m
  rw [Step.ends_bind]
  exact (hx m).mono
    (fun a m₁ hm => (hf a m₁).mono (fun _ _ h => h) fun _ _ h => h.of_sameButStack hm)
    fun _ _ h => .lookup h.1 h.2

theorem Strives.bind {x : Act δ ν β τ α} {f : α → Act δ ν β τ γ} (hx : Strives x)
    (hf : ∀ a, Strives (f a)) : Strives (x >>= f) := by
  intro m
  rw [Step.ends_bind]
  refine (hx m).mono (fun a m₁ hm => ?_) fun _ _ h => h
  exact (hf a m₁).mono (fun _ _ h => h.trans hm) fun _ _ h => ⟨h.1, h.2.trans hm⟩

theorem Strives.contains {x : Act δ ν β τ α} (hx : Strives x) : Contains H x := by
  refine fun m => (hx m).mono (fun _ _ _ => trivial) ?_
  rintro _ m' ⟨⟨r, rfl⟩, hm⟩
  exact .refused hm

/-! ### The parts of instructions -/

theorem looks_get : Looks (get : Act δ ν β τ _) :=
  sameButStack_refl

theorem looks_string (id : UInt32) : Looks (string id : Act δ ν β τ String) := fun m =>
  ends_string (fun _ _ => m.sameButStack_refl) fun _ he => ⟨he, m.sameButStack_refl⟩

theorem looks_textAt (ptr len : UInt32) : Looks (textAt mem ptr len : Act δ ν β τ String) :=
  fun m => ends_textAt (fun _ _ => m.sameButStack_refl) fun _ he => ⟨he, m.sameButStack_refl⟩

theorem looks_topNode (op : Opcode) : Looks (onStack (Stack.topNode op) : Act δ ν β τ ν) :=
  fun m => ends_topNode (fun _ _ _ => m.sameButStack_refl) fun _ he => ⟨he, m.sameButStack_refl⟩

theorem looks_popNode (op : Opcode) : Looks (onStack (Stack.popNode op) : Act δ ν β τ ν) :=
  fun _ => ends_popNode (fun _ _ _ => ⟨rfl, rfl⟩) fun _ _ he => ⟨he, rfl, rfl⟩

theorem looks_pop (op : Opcode) : Looks (onStack (Stack.pop op) : Act δ ν β τ (Option ν)) :=
  fun m => ends_pop (fun _ _ _ => ⟨rfl, rfl⟩) fun _ he => ⟨he, m.sameButStack_refl⟩

theorem push_contains (slot : Option ν) :
    Contains H (onStack (Stack.push slot) : Act δ ν β τ Unit) := by
  intro m
  rcases push_cases slot m with h | ⟨limit, h⟩
  · rw [Step.Ends, h]
    trivial
  · rw [Step.Ends, h]
    exact .full m.sameButStack_refl

theorem strives_pure (a : α) : Strives (pure a : Act δ ν β τ α) := fun _ => rfl

theorem strives_get : Strives (get : Act δ ν β τ _) := fun _ => rfl

theorem strives_onScene {x : Scene.Act δ ν β τ α} (hx : Raises (fun e => ∃ r, e = .host r) x) :
    Strives (onScene x) := fun m =>
  ends_onScene.mpr ((hx m.toScene).mono (fun _ _ _ => rfl) fun _ _ h => ⟨h, rfl⟩)

theorem strives_call {k : Reply} (c : HostCall ν β k) : Strives (call H c : Act δ ν β τ _) :=
  strives_onScene (Scene.call_raises (fun r => ⟨r, rfl⟩) c)

theorem strives_follow (node : ν) (property : Option Property) :
    Strives (follow H node property : Act δ ν β τ Unit) := by
  cases property with
  | none => exact strives_pure ()
  | some property => exact strives_call _

theorem strives_removeFrom (steps : Nat) (node : ν) :
    Strives (removeFrom H steps node : Act δ ν β τ Unit) := by
  induction steps generalizing node with
  | zero => exact strives_pure ()
  | succ steps ih =>
    rw [removeFrom_succ]
    refine strives_get.bind fun m => (strives_call _).bind fun _ => ?_
    cases H.nextSibling m.doc node with
    | none => exact strives_pure ()
    | some sibling => exact ih sibling

/-- To create a node is the one call that something else comes after. -/
theorem create_contains (c : HostCall ν β .node) :
    Contains H (call H c >>= fun node => onStack (Stack.push (some node)) : Act δ ν β τ Unit) := by
  intro m
  rw [Step.ends_bind, ends_call]
  refine Step.ends_iff.mpr ⟨fun node d hc => ?_, fun r d _ => .refused rfl⟩
  rcases push_cases (some node) { m with doc := d } with h | ⟨limit, h⟩
  · rw [Step.Ends, h]
    trivial
  · rw [Step.Ends, h]
    exact .created c node d hc (sameButStack_refl _)

/-- There is no listener to update, or nothing can go wrong. -/
theorem update_contains (key : NodeKey) (eventType : String) (handles : UInt32 × UInt32) :
    Contains H (onScene (Scene.update key eventType handles) : Act δ ν β τ Unit) := by
  intro m
  rw [ends_onScene, Scene.update, Step.ends_bind, Step.ends_get, Step.ends_bind, Step.ends_ofExcept]
  refine ⟨fun _ _ => trivial, fun e he => .lookup ?_ m.sameButStack_refl⟩
  rw [Registry.update] at he
  split at he
  · cases he
  · cases he
    trivial

/-- There is no listener to take off, or only the document can refuse. -/
theorem detach_contains (node : ν) (eventType : String) :
    Contains H (onScene (Scene.detach H node eventType) : Act δ ν β τ Unit) := by
  intro m
  rw [ends_onScene, Scene.detach_eq, Step.ends_bind, Step.ends_get]
  cases m.listeners.entries.get? (H.key m.doc node, eventType) with
  | none => exact .lookup trivial m.sameButStack_refl
  | some entry =>
    have hrelease : Raises (fun e => ∃ r, e = .host r)
        (Scene.release H (H.key m.doc node) eventType entry : Scene.Act δ ν β τ Unit) :=
      Scene.release_raises (fun r => ⟨r, rfl⟩) _ _ entry
    refine (hrelease m.toScene).mono (fun _ _ _ => trivial) ?_
    rintro _ _ ⟨r, rfl⟩
    exact .refused rfl

/-- The node that takes the place goes where it came from, so that there is room for it. -/
theorem replaceWith_contains {m : Machine δ ν β τ} (hfits : m.stack.Fits) :
    Step.Ends (exec H mem .replaceWith) m (fun _ _ => True) (Contained H m) := by
  rw [exec, Step.ends_bind]
  refine ends_popNode (fun new st₁ h₁ => ?_) fun e _ he => .lookup he ⟨rfl, rfl⟩
  rw [Step.ends_bind]
  refine ends_popNode (fun old st h₂ => ?_) fun e _ he => .lookup he ⟨rfl, rfl⟩
  rw [slots_withSlots] at h₂
  rw [Step.ends_bind, ends_call]
  refine Step.ends_iff.mpr ⟨fun _ d _ => ?_, fun r d _ => .refused rfl⟩
  have hdepth : m.stack.depth = st.length + 2 := by
    rw [Stack.depth, h₁, h₂]
    rfl
  have hroom : Stack.push (some new) { m.stack with slots := st }
      = .ok () { m.stack with slots := some new :: st } := by
    refine Stack.push_of_room (fun limit hl => ?_) _
    have hle := hfits limit hl
    show st.length < limit
    omega
  have hpush : onStack (Stack.push (some new))
      { m with stack := { m.stack with slots := st }, doc := d } = .ok () _ :=
    Step.onPart_ok hroom
  exact Step.ends_iff.mpr ⟨fun _ _ _ => trivial, fun e m' h => by cases hpush.symm.trans h⟩

/-! ## Instructions -/

theorem exec_contains (mem : Binary.Bytes) (i : Instr) {m : Machine δ ν β τ}
    (hfits : m.stack.Fits) :
    Step.Ends (exec H mem i) m (fun _ _ => True) (Contained H m) := by
  have looking {x : Act δ ν β τ Unit} (h : Contains H x) :
      Step.Ends x m (fun _ _ => True) (Contained H m) := h m
  cases i with
  | setText ptr len =>
    exact looking ((looks_textAt _ _).bind fun _ => (looks_topNode _).bind fun _ =>
      (strives_call _).contains)
  | removeSelfAndNextSiblings =>
    exact looking ((looks_popNode _).bind fun _ => looks_get.bind fun _ =>
      (strives_removeFrom _ _).contains)
  -- pushes after its call, and only the two slots that it has taken off make sure of the room
  | replaceWith => exact replaceWith_contains hfits
  | setAttribute name value =>
    exact looking ((looks_topNode _).bind fun _ => (looks_string _).bind fun _ =>
      (looks_string _).bind fun _ => ((strives_call _).bind fun _ => strives_follow _ _).contains)
  | removeAttribute name =>
    exact looking ((looks_topNode _).bind fun _ => (looks_string _).bind fun _ =>
      ((strives_call _).bind fun _ => strives_follow _ _).contains)
  | pushFirstChild =>
    exact looking ((looks_topNode _).bind fun _ => looks_get.bind fun _ => push_contains _)
  | popPushNextSibling =>
    exact looking ((looks_popNode _).bind fun _ => looks_get.bind fun _ => push_contains _)
  | pop => exact looking ((looks_pop _).bind fun _ => (strives_pure ()).contains)
  | appendChild =>
    exact looking ((looks_popNode _).bind fun _ => (looks_topNode _).bind fun _ =>
      (strives_call _).contains)
  | createText ptr len =>
    exact looking ((looks_textAt _ _).bind fun _ => create_contains _)
  | createElement tag =>
    exact looking ((looks_string _).bind fun _ => create_contains _)
  | newListener event a b =>
    exact looking ((looks_topNode _).bind fun _ => (looks_string _).bind fun _ =>
      (strives_onScene (Scene.attach_raises (fun r => ⟨r, rfl⟩) _ _ _)).contains)
  | updateListener event a b =>
    exact looking ((looks_topNode _).bind fun _ => looks_get.bind fun _ =>
      (looks_string _).bind fun _ => update_contains _ _ _)
  | removeListener event =>
    exact looking ((looks_topNode _).bind fun _ => (looks_string _).bind fun _ =>
      detach_contains _ _)
  | addString ptr len id =>
    exact looking ((looks_textAt _ _).bind fun _ _ => trivial)

/-! ## The calls of an instruction -/

/-- The machine with its document under watch. No call has been made yet. -/
def watched (m : Machine δ ν β τ) : Machine (Watched δ ν β) ν β τ :=
  { m with doc := ⟨m.doc, #[]⟩ }

/-- The calls that an instruction makes. -/
def calls (H : Host δ ν β) (mem : Binary.Bytes) (i : Instr) (m : Machine δ ν β τ) :
    List (AnyCall ν β) :=
  (Step.after (exec (H.watched fun _ => none) mem i) m.watched).doc.calls.toList

variable {i : Instr} {m m' : Machine δ ν β τ} {e : Error}

/-- An instruction that fails does so under watch. -/
theorem error_under_watch (h : exec H mem i m = .error e m') :
    ∃ w, exec (H.watched fun _ => none) mem i m.watched = .error e w ∧
      m'.Paired (fun d w => w.doc = d) w ∧ calls H mem i m = w.doc.calls.toList := by
  have hpaired : m.Paired (fun d w => w.doc = d) m.watched := ⟨⟨rfl, rfl, rfl⟩, rfl, rfl⟩
  rcases (exec_pairs H.watched_follows mem i).along hpaired with hagree | ⟨_, _, -, _, -, hB⟩
  · rcases Step.agree_iff.mp hagree with ⟨_, _, _, hx, -, -⟩ | ⟨_, _, w, hx, hw, hm⟩
    · cases h.symm.trans hx
    · cases h.symm.trans hx
      refine ⟨w, hw, hm, ?_⟩
      rw [calls, Step.after, hw]
  · exact hB.elim

theorem perform_of_watched {k : Reply} {c : HostCall ν β k} {refuse : Nat → Option HostError}
    {w w' : Watched δ ν β} {a : k.Of ν β} (h : (H.watched refuse).perform c w = .ok a w') :
    H.perform c w.doc = .ok a w'.doc ∧ w'.calls = w.calls.push ⟨k, c⟩ := by
  unfold Host.watched at h
  dsimp only at h
  split at h
  · cases h
  · split at h
    · rename_i hc
      cases h
      exact ⟨hc, rfl⟩
    · cases h

/-- What is left of a machine on which an instruction has failed. -/
structure Failed (H : Host δ ν β) (mem : Binary.Bytes) (i : Instr) (m : Machine δ ν β τ)
    (e : Error) (m' : Machine δ ν β τ) : Prop where
  /-- An instruction fails for nothing else. -/
  reason : e.OfLookup ∨ (∃ limit, e = .stackOverflow limit) ∨ ∃ r, e = .host r
  /-- No text has been stored. -/
  strings : m'.strings = m.strings
  /-- Whatever is not found is not found before the first call. -/
  lookup : e.OfLookup → calls H mem i m = [] ∧ m'.toScene = m.toScene
  /-- A node may have been made that there was no room for. -/
  overflow : ∀ limit, e = .stackOverflow limit → m'.listeners = m.listeners ∧
    (calls H mem i m = [] ∧ m'.doc = m.doc ∨ ∃ (c : HostCall ν β .node) (node : ν),
      calls H mem i m = [⟨.node, c⟩] ∧ H.perform c m.doc = .ok node m'.doc)

theorem failed_of_exec (hfits : m.stack.Fits) (h : exec H mem i m = .error e m') :
    Failed H mem i m e m' := by
  obtain ⟨w, hw, ⟨hscene, -, hstrings⟩, hcalls⟩ := error_under_watch h
  have hcontained := exec_contains (H := H.watched fun _ => none) mem i (m := m.watched) hfits
  rw [Step.Ends, hw] at hcontained
  have hscene_eq : m'.toScene = { w.toScene with doc := w.doc.doc } := by
    obtain ⟨⟨d, listeners, journal⟩, stack, strings⟩ := m'
    obtain ⟨rfl, rfl, rfl⟩ := hscene
    rfl
  cases hcontained with
  | lookup he hsame =>
    have hkept : m'.toScene = m.toScene := by rw [hscene_eq, hsame.scene]; rfl
    refine ⟨.inl he, hstrings.trans hsame.strings, fun _ => ⟨?_, hkept⟩, ?_⟩
    · rw [hcalls, hsame.scene]
      rfl
    · rintro limit rfl
      exact he.elim
  | full hsame =>
    have hkept : m'.toScene = m.toScene := by rw [hscene_eq, hsame.scene]; rfl
    refine ⟨.inr (.inl ⟨_, rfl⟩), hstrings.trans hsame.strings, fun he => he.elim, fun _ _ => ?_⟩
    rw [hkept, hcalls, hsame.scene]
    exact ⟨rfl, .inl ⟨rfl, rfl⟩⟩
  | created c node d hc hsame =>
    obtain ⟨hperform, hpush⟩ := perform_of_watched hc
    refine ⟨.inr (.inl ⟨_, rfl⟩), hstrings.trans hsame.strings, fun he => he.elim, fun _ _ => ?_⟩
    rw [hscene_eq, hcalls, hsame.scene]
    refine ⟨rfl, .inr ⟨c, node, ?_, hperform⟩⟩
    rw [hpush]
    rfl
  | refused hsame =>
    refine ⟨.inr (.inr ⟨_, rfl⟩), hstrings.trans hsame, fun he => he.elim, ?_⟩
    rintro limit ⟨⟩

end Machine

/-! ## Nodes that there was no room for -/

namespace Document

variable {κ : Type} {wrap : ListenerId → κ} {d d' : Document κ} {x : NodeId}

/-- `d'` is `d` with the new node `x`, which is not attached anywhere. -/
structure Loose (x : NodeId) (d d' : Document κ) : Prop where
  fresh : ¬ d.Known x
  known : d'.Known x
  orphan : d'.parent? x = none
  unlisted : ∀ p, x ∉ d'.children p
  others : ∀ id, d.Known id → d'.node? id = d.node? id

theorem loose_of_allocate (hd : d.WellFormed) {content : Content}
    (h : allocate content d = .ok x d') : Loose x d d' := by
  obtain ⟨d₁, h₁, r⟩ := raised_of_allocate hd content
  cases h₁.symm.trans h
  refine ⟨r.fresh, ?_, r.orphan, fun p hp => ?_, r.others⟩
  · rw [known_iff, node?_of_allocate h₁, if_pos rfl]
    exact ⟨_, rfl⟩
  · cases ((r.wellFormed.linked p _).mp hp).symm.trans r.orphan

theorem loose_of_created (hd : d.WellFormed) {c : HostCall NodeId Nat .node}
    (h : (host wrap).perform c d = .ok x d') : Loose x d d' := by
  cases c with
  | createText text => exact loose_of_allocate hd h
  | createElement tag => exact loose_of_allocate hd h

end Document

namespace Machine

open Document (Loose host)

variable {κ : Type}

/-- Whatever the host, the memory and the instruction. A failed instruction has stored no text. If
it has not found something it has made no call and left the listeners as they were. If there was no
room for a slot it has left the listeners as they were, and made one call at most; then a document,
whether or not it may refuse calls, has one more node, which is not attached anywhere. A stack is
created within its limit, and instructions keep it there. -/
theorem exec_failure_contained (H : Host δ ν β) (wrap : ListenerId → κ)
    (refuse : Nat → Option HostError) (mem : Binary.Bytes) (i : Instr) :
    (∀ limit, (Stack.empty limit : Stack ν).Fits) ∧
    (∀ m : Machine δ ν β τ, m.stack.Fits → (Step.after (exec H mem i) m).stack.Fits ∧
      ∀ e m', exec H mem i m = .error e m' → Failed H mem i m e m') ∧
    (∀ (m : Machine (Document κ) NodeId Nat τ) (limit : Nat) m', m.stack.Fits →
      m.doc.WellFormed → exec (host wrap) mem i m = .error (.stackOverflow limit) m' →
        calls (host wrap) mem i m = [] ∧ m'.doc = m.doc ∨
          ∃ (c : HostCall NodeId Nat .node) (x : NodeId),
            calls (host wrap) mem i m = [⟨.node, c⟩] ∧ Loose x m.doc m'.doc) ∧
    ∀ (m : Machine (Watched (Document κ) NodeId Nat) NodeId Nat τ) (limit : Nat) m',
      m.stack.Fits → m.doc.doc.WellFormed →
        exec ((host wrap).watched refuse) mem i m = .error (.stackOverflow limit) m' →
          calls ((host wrap).watched refuse) mem i m = [] ∧ m'.doc = m.doc ∨
            ∃ (c : HostCall NodeId Nat .node) (x : NodeId),
              calls ((host wrap).watched refuse) mem i m = [⟨.node, c⟩] ∧
                Loose x m.doc.doc m'.doc.doc := by
  refine ⟨fun limit _ _ => Nat.zero_le _, fun m hfits => ⟨?_, fun e m' => failed_of_exec hfits⟩,
    fun m limit m' hfits hd h => ?_, fun m limit m' hfits hd h => ?_⟩
  · exact (Step.leads_iff.mp (exec_staysWithin mem i) m).fits hfits
  · refine ((failed_of_exec hfits h).overflow limit rfl).2.imp_right ?_
    rintro ⟨c, x, hcalls, hc⟩
    exact ⟨c, x, hcalls, Document.loose_of_created hd hc⟩
  · refine ((failed_of_exec hfits h).overflow limit rfl).2.imp_right ?_
    rintro ⟨c, x, hcalls, hc⟩
    exact ⟨c, x, hcalls, Document.loose_of_created hd (perform_of_watched hc).1⟩

/-- A machine whose stack has room for one slot, with the first node of its document on it. -/
def crowded : Machine (Document ListenerId) NodeId Nat Unit :=
  { (ofDoc (Document.withSeed "main" "button") (some 1)).withSlots [some ⟨1⟩] with
    strings := StringTable.empty.add "p" 0 }

/-- An element is made that there is no room for. -/
theorem exec_failure_contained_crowded :
    ∃ m' x, exec (host id) [] (.createElement 0) crowded = .error (.stackOverflow 1) m' ∧
      m'.listeners = crowded.listeners ∧ m'.strings = crowded.strings ∧
      calls (host id) [] (.createElement 0) crowded = [⟨.node, .createElement "p"⟩] ∧
      Loose x crowded.doc m'.doc := by
  obtain ⟨m', hm'⟩ : ∃ m', exec (host id) [] (.createElement 0) crowded
      = .error (.stackOverflow 1) m' := ⟨_, rfl⟩
  have hfits : crowded.stack.Fits := by
    rintro limit ⟨⟩
    exact Nat.le_refl 1
  have hd : crowded.doc.WellFormed := (Document.withSeed_reachable "main" "button").wellFormed
  have hcalls : calls (host id) [] (.createElement 0) crowded
      = [⟨.node, .createElement "p"⟩] := rfl
  obtain ⟨-, hfailed, hloose, -⟩ :=
    exec_failure_contained (host id) id (fun _ => none) [] (.createElement 0) (τ := Unit)
  have hleft := (hfailed crowded hfits).2 _ m' hm'
  rcases hloose crowded 1 m' hfits hd hm' with ⟨hnone, -⟩ | ⟨c, x, -, hx⟩
  · cases hcalls.symm.trans hnone
  · exact ⟨m', x, hm', (hleft.overflow 1 rfl).1, hleft.strings, hcalls, hx⟩

end Machine

end TreeEdit
