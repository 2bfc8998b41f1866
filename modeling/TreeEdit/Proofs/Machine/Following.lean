import TreeEdit.Host.Watched
import TreeEdit.Machine.Run
import TreeEdit.Proofs.Following
import TreeEdit.Proofs.Machine.Congruence

/-!
# Machines on hosts that follow one another

`Host.Follows` says of two hosts that the second one shows what the first one shows and answers each
call as the first one does, or breaks off at it. Then whole machines follow one another: every
instruction, every range and every queue of ranges is run alike on both, up to the call at which the
second host breaks off. That call ends the run at once, because no instruction catches an error.
-/

namespace TreeEdit

open Step (Follows Leads Lasting)

variable {δ δ' ν β τ α : Type} {H : Host δ ν β} {H' : Host δ' ν β} {R : δ → δ' → Prop}
  {B : δ → HostError → δ' → Prop} {k : Reply}

/-- On documents that `R` relates, `H'` shows what `H` shows, and answers calls as `H` does or
breaks off with `B`. -/
structure Host.Follows (H : Host δ ν β) (H' : Host δ' ν β) (R : δ → δ' → Prop)
    (B : δ → HostError → δ' → Prop) : Prop where
  key : ∀ {d d'}, R d d' → ∀ n, H.key d n = H'.key d' n
  rootSeed : ∀ {d d'}, R d d' → ∀ n, H.rootSeed d n = H'.rootSeed d' n
  firstChild : ∀ {d d'}, R d d' → ∀ n, H.firstChild d n = H'.firstChild d' n
  nextSibling : ∀ {d d'}, R d d' → ∀ n, H.nextSibling d n = H'.nextSibling d' n
  extent : ∀ {d d'}, R d d' → H.extent d = H'.extent d'
  perform : ∀ {k : Reply} (c : HostCall ν β k), Step.Follows R B (H.perform c) (H'.perform c)

/-! ## Hosts under watch -/

/-- A host that refuses nothing records a call and makes it. -/
theorem Host.after_recorded (c : HostCall ν β k) (w : Watched δ ν β) :
    Step.after ((H.watched fun _ => none).perform c) w
      = ⟨Step.after (H.perform c) w.doc, w.calls.push ⟨k, c⟩⟩ := by
  unfold Step.after Host.watched
  dsimp only
  cases H.perform c w.doc <;> rfl

/-- To record the calls changes nothing about them. -/
theorem Host.watched_follows (H : Host δ ν β) :
    H.Follows (H.watched fun _ => none) (fun d w => w.doc = d) fun _ _ _ => False where
  key hd _ := by rw [← hd]; rfl
  rootSeed hd _ := by rw [← hd]; rfl
  firstChild hd _ := by rw [← hd]; rfl
  nextSibling hd _ := by rw [← hd]; rfl
  extent hd := by rw [← hd]; rfl
  perform c := by
    refine Step.follows_of_agree (fun {d w} hd => ?_) (Step.leads_iff.mpr fun _ _ _ h => h.elim)
    subst hd
    unfold Step.Agree Host.watched
    dsimp only
    cases H.perform c w.doc with
    | ok a d => exact ⟨rfl, rfl⟩
    | error e d => exact ⟨rfl, rfl⟩

/-! ## Scenes -/

namespace Scene

/-- The scenes differ in their documents, which `R` relates. -/
structure Paired (R : δ → δ' → Prop) (c : Scene δ ν β τ) (c' : Scene δ' ν β τ) : Prop where
  doc : R c.doc c'.doc
  listeners : c.listeners = c'.listeners
  journal : c.journal = c'.journal

/-- The second scene has been broken off by its host. -/
def Broken (B : δ → HostError → δ' → Prop) (c : Scene δ ν β τ) (e : Error)
    (c' : Scene δ' ν β τ) : Prop :=
  ∃ h, e = .host h ∧ B c.doc h c'.doc

/-- The steps follow one another on paired scenes. -/
abbrev Pairs (R : δ → δ' → Prop) (B : δ → HostError → δ' → Prop) (x : Act δ ν β τ α)
    (y : Act δ' ν β τ α) : Prop :=
  Step.Follows (Paired R) (Broken B) x y

theorem lasting_of_doc {c₁ c₂ : Scene δ ν β τ} (h : Lasting B c₁.doc c₂.doc) :
    Lasting (Broken B (τ := τ) (ν := ν) (β := β)) c₁ c₂ := by
  rintro e c' ⟨r, rfl, hB⟩
  exact ⟨r, rfl, h r _ hB⟩

theorem call_pairs (hH : H.Follows H' R B) (c : HostCall ν β k) :
    Pairs (τ := τ) R B (call H c) (call H' c) := by
  constructor
  · intro s s' hs
    rcases (hH.perform c).along hs.doc with hagree | ⟨r, d', hd', hB⟩
    · left
      rcases Step.agree_iff.mp hagree with ⟨a, d, d', hd, hd', hR⟩ | ⟨r, d, d', hd, hd', hR⟩
      · have hx : call H c s = .ok a { s with doc := d } := by rw [call, hd]
        have hy : call H' c s' = .ok a { s' with doc := d' } := by rw [call, hd']
        exact Step.agree_of_ok hx hy ⟨hR, hs.listeners, hs.journal⟩
      · have hx : call H c s = .error (.host r) { s with doc := d } := by rw [call, hd]
        have hy : call H' c s' = .error (.host r) { s' with doc := d' } := by rw [call, hd']
        exact Step.agree_of_error hx hy ⟨hR, hs.listeners, hs.journal⟩
    · refine .inr ⟨.host r, { s' with doc := d' }, ?_, r, rfl, ?_⟩
      · rw [call, hd']
      · rw [after_call]
        exact hB
  · rw [Step.leads_iff]
    intro s
    rw [after_call]
    exact lasting_of_doc (Step.leads_iff.mp (hH.perform c).lasting s.doc)

theorem modifyListeners_pairs (f : Registry ν β τ → Registry ν β τ) :
    Pairs R B (modifyListeners f) (modifyListeners f) :=
  Step.follows_modify (fun hs => ⟨hs.doc, congrArg f hs.listeners, hs.journal⟩)
    fun _ => lasting_of_doc fun _ _ h => h

theorem note_pairs (notice : Notice) :
    Pairs R B (note notice : Act δ ν β τ Unit) (note notice) :=
  Step.follows_modify
    (fun hs => ⟨hs.doc, hs.listeners, congrArg (Array.push · notice) hs.journal⟩)
    fun _ => lasting_of_doc fun _ _ h => h

theorem release_pairs (hH : H.Follows H' R B) (node : NodeKey) (eventType : String)
    (entry : Registry.Entry ν β) :
    Pairs (τ := τ) R B (release H node eventType entry) (release H' node eventType entry) :=
  (modifyListeners_pairs _).bind fun _ => call_pairs hH _

theorem giveWay_pairs (hH : H.Follows H' R B) (key : NodeKey) (eventType : String)
    (entry : Option (Registry.Entry ν β)) :
    Pairs (τ := τ) R B (giveWay H key eventType entry) (giveWay H' key eventType entry) := by
  cases entry with
  | none => exact Step.follows_pure ()
  | some entry => exact (note_pairs _).bind fun _ => release_pairs hH key eventType entry

theorem enlist_pairs (hH : H.Follows H' R B) (key : NodeKey) (node : ν) (eventType : String)
    (handles : UInt32 × UInt32) (r : Registry ν β τ) :
    Pairs R B (enlist H key node eventType handles r) (enlist H' key node eventType handles r) :=
  (modifyListeners_pairs _).bind fun _ => (call_pairs hH _).bind fun _ => modifyListeners_pairs _

theorem attach_pairs (hH : H.Follows H' R B) (node : ν) (eventType : String)
    (handles : UInt32 × UInt32) :
    Pairs (τ := τ) R B (attach H node eventType handles) (attach H' node eventType handles) := by
  rw [attach_eq, attach_eq]
  refine Step.follows_look (R := Paired R) (B := Broken B)
    (fun s => (H.key s.doc node, s.listeners)) (fun s => (H'.key s.doc node, s.listeners))
    (fun p => giveWay H p.1 eventType (p.2.entries.get? (p.1, eventType)) >>= fun _ =>
      get >>= fun s => enlist H p.1 node eventType handles s.listeners)
    (fun p => giveWay H' p.1 eventType (p.2.entries.get? (p.1, eventType)) >>= fun _ =>
      get >>= fun s => enlist H' p.1 node eventType handles s.listeners)
    (fun hs => ?_) fun p => (giveWay_pairs hH _ _ _).bind fun _ => ?_
  · rw [hH.key hs.doc, hs.listeners]
  · exact Step.follows_look listeners listeners (enlist H p.1 node eventType handles)
      (enlist H' p.1 node eventType handles) (fun hs => hs.listeners) (enlist_pairs hH _ _ _ _)

theorem update_pairs (node : NodeKey) (eventType : String) (handles : UInt32 × UInt32) :
    Pairs R B (update node eventType handles : Act δ ν β τ Unit)
      (update node eventType handles) :=
  Step.follows_look listeners listeners
    (fun r => Step.ofExcept (r.update node eventType handles) >>= fun r' =>
      modifyListeners fun _ => r')
    (fun r => Step.ofExcept (r.update node eventType handles) >>= fun r' =>
      modifyListeners fun _ => r')
    (fun hs => hs.listeners)
    fun _ => (Step.follows_ofExcept _).bind fun _ => modifyListeners_pairs _

theorem dismiss_pairs (hH : H.Follows H' R B) (key : NodeKey) (eventType : String)
    (entry : Option (Registry.Entry ν β)) :
    Pairs (τ := τ) R B (dismiss H key eventType entry) (dismiss H' key eventType entry) := by
  cases entry with
  | none => exact Step.follows_throw _
  | some entry => exact release_pairs hH key eventType entry

theorem detach_pairs (hH : H.Follows H' R B) (node : ν) (eventType : String) :
    Pairs (τ := τ) R B (detach H node eventType) (detach H' node eventType) := by
  rw [detach_eq, detach_eq]
  refine Step.follows_look (R := Paired R) (B := Broken B)
    (fun s => (H.key s.doc node, s.listeners)) (fun s => (H'.key s.doc node, s.listeners))
    (fun p => dismiss H p.1 eventType (p.2.entries.get? (p.1, eventType)))
    (fun p => dismiss H' p.1 eventType (p.2.entries.get? (p.1, eventType)))
    (fun hs => ?_) fun _ => dismiss_pairs hH _ _ _
  rw [hH.key hs.doc, hs.listeners]

end Scene

/-! ## Machines -/

namespace Machine

/-- The machines differ in their documents, which `R` relates. -/
structure Paired (R : δ → δ' → Prop) (m : Machine δ ν β τ) (m' : Machine δ' ν β τ) : Prop where
  scene : m.toScene.Paired R m'.toScene
  stack : m.stack = m'.stack
  strings : m.strings = m'.strings

/-- The second machine has been broken off by its host. -/
def Broken (B : δ → HostError → δ' → Prop) (m : Machine δ ν β τ) (e : Error)
    (m' : Machine δ' ν β τ) : Prop :=
  Scene.Broken B m.toScene e m'.toScene

/-- The steps follow one another on paired machines. -/
abbrev Pairs (R : δ → δ' → Prop) (B : δ → HostError → δ' → Prop) (x : Act δ ν β τ α)
    (y : Act δ' ν β τ α) : Prop :=
  Step.Follows (Paired R) (Broken B) x y

/-! ### The parts of instructions -/

theorem onScene_pairs {x : Scene.Act δ ν β τ α} {y : Scene.Act δ' ν β τ α}
    (h : Scene.Pairs R B x y) : Pairs R B (onScene x) (onScene y) :=
  Step.follows_onPart h (fun hm => hm.scene) (fun hm hs => ⟨hs, hm.stack, hm.strings⟩)
    (fun _ hB => hB) fun _ _ h _ m' => h _ m'.toScene

theorem onStack_pairs (x : EStateM Error (Stack ν) α) :
    Pairs R B (onStack x : Act δ ν β τ α) (onStack x) := by
  have hx : Step.Follows Eq (fun _ _ _ => False) x x :=
    Step.follows_of_agree (fun hs => Step.agree_refl x hs)
      (Step.leads_iff.mpr fun _ _ _ h => h.elim)
  exact Step.follows_onPart hx (fun hm => hm.stack) (fun hm hs => ⟨hm.scene, hs, hm.strings⟩)
    (fun _ h => h.elim) fun _ _ _ _ _ h => h

theorem call_pairs (hH : H.Follows H' R B) (c : HostCall ν β k) :
    Pairs (τ := τ) R B (call H c) (call H' c) :=
  onScene_pairs (Scene.call_pairs hH c)

theorem string_pairs (id : UInt32) :
    Pairs R B (string id : Act δ ν β τ String) (string id) :=
  Step.follows_look strings strings (fun t => Step.ofExcept (t.get id))
    (fun t => Step.ofExcept (t.get id)) (fun hm => hm.strings) fun _ => Step.follows_ofExcept _

/-- What instructions look for shows alike. -/
theorem sight_pairs {ω : Type} {v : δ → ω} {w : δ' → ω} (hH : H.Follows H' R B)
    (h : H.Sight H' v w) {d : δ} {d' : δ'} (hd : R d d') : v d = w d' := by
  cases h with
  | key n => exact hH.key hd n
  | firstChild n => exact hH.firstChild hd n
  | nextSibling n => exact hH.nextSibling hd n
  | extent => exact hH.extent hd

/-! ### Instructions and ranges -/

theorem composes_pairs :
    Composes (fun (x : Act δ ν β τ _) (y : Act δ' ν β τ _) => Pairs R B x y) where
  bind := Step.Follows.bind
  ofExcept _ := Step.follows_ofExcept _

theorem congruence_pairs (hH : H.Follows H' R B) :
    Congruence H H' (fun (x : Act δ ν β τ _) (y : Act δ' ν β τ _) => Pairs R B x y) where
  toComposes := composes_pairs
  stack := fun {_ x} _ => onStack_pairs x
  string := string_pairs
  look := fun {_ _ v w} hv f g hf =>
    Step.follows_look (fun m => v m.doc) (fun m' => w m'.doc) f g
      (fun hm => sight_pairs hH hv hm.scene.doc) hf
  call c _ := call_pairs hH c
  dress _ _ _ := composes_pairs.callFollow (call_pairs hH _) (fun _ => call_pairs hH _) _
  undress _ _ := composes_pairs.callFollow (call_pairs hH _) (fun _ => call_pairs hH _) _
  attach _ _ _ := onScene_pairs (Scene.attach_pairs hH _ _ _)
  update _ _ _ := onScene_pairs (Scene.update_pairs _ _ _)
  detach _ _ := onScene_pairs (Scene.detach_pairs hH _ _)

theorem exec_pairs (hH : H.Follows H' R B) (mem : Binary.Bytes) (i : Instr) :
    Pairs (τ := τ) R B (exec H mem i) (exec H' mem i) :=
  exec_congr (congruence_pairs hH) mem i fun _ _ id _ text =>
    Step.follows_modify (R := Paired R) (B := Broken B)
      (fun hm => ⟨hm.scene, hm.stack, congrArg (StringTable.add · text id) hm.strings⟩)
      fun _ _ _ h => h

theorem attempt_pairs (hH : H.Follows H' R B) (mem : Binary.Bytes) (traced : Bool) (offset : Nat)
    (i : Instr) :
    Pairs (τ := τ) R B (attempt H mem traced offset i) (attempt H' mem traced offset i) := by
  cases traced with
  | false => exact exec_pairs hH mem i
  | true =>
    exact Step.follows_look (R := Paired R) (B := Broken B)
      (fun m => m.stack.depth) (fun m => m.stack.depth)
      (fun depth => onScene (Scene.note (.attempted offset i depth)) >>= fun _ => exec H mem i)
      (fun depth => onScene (Scene.note (.attempted offset i depth)) >>= fun _ => exec H' mem i)
      (fun hm => congrArg Stack.depth hm.stack)
      fun depth => (onScene_pairs (Scene.note_pairs _)).bind fun _ => exec_pairs hH mem i

theorem runAll_pairs (hH : H.Follows H' R B) (mem : Binary.Bytes) (traced : Bool)
    (spans : List Span) :
    Pairs (τ := τ) R B (runAll H mem traced spans) (runAll H' mem traced spans) :=
  runAll_congr composes_pairs (attempt_pairs hH mem traced) spans

end Machine

end TreeEdit
