import TreeEdit.Proofs.Listener.Attendance
import TreeEdit.Proofs.Listener.Leading
import TreeEdit.Proofs.OrderedMap

/-!
# Listeners in custody

All that the steps of a registry do to its entries is to release one that is there and to enter a
listener where there is none. What leads along these two, from the scenes where they happen, leads
along all steps of a registry (`Custody.attach`, `Custody.teardown`). A teardown leaves no entry and
no trampoline behind, whatever the document refuses (`teardown_clears`).
-/

namespace TreeEdit

variable {δ ν β τ : Type}

/-! ## Listeners stay known -/

namespace Registry

variable {r r' : Registry ν β τ} {id : ListenerId}

/-- The listener was made and revoked. -/
def Revoked (r : Registry ν β τ) (id : ListenerId) : Prop :=
  ∃ l, r.listener? id = some l ∧ l.revoked = true

/-- No listener is forgotten, and those that were revoked stay so. -/
def Remembers (r r' : Registry ν β τ) : Prop :=
  ∀ id l, r.listener? id = some l →
    ∃ l', r'.listener? id = some l' ∧ (l.revoked = true → l'.revoked = true)

theorem Remembers.made (h : r.Remembers r') (hid : ∃ l, r.listener? id = some l) :
    ∃ l, r'.listener? id = some l := by
  obtain ⟨l, hl⟩ := hid
  obtain ⟨l', hl', -⟩ := h id l hl
  exact ⟨l', hl'⟩

theorem Remembers.revoked (h : r.Remembers r') (hid : r.Revoked id) : r'.Revoked id := by
  obtain ⟨l, hl, hrevoked⟩ := hid
  obtain ⟨l', hl', hstays⟩ := h id l hl
  exact ⟨l', hl', hstays hrevoked⟩

theorem remembers_of_listeners (h : r'.listeners = r.listeners) : r.Remembers r' := by
  intro id l hl
  refine ⟨l, ?_, fun hrevoked => hrevoked⟩
  rw [listener?, h]
  exact hl

theorem remembers_make (r : Registry ν β τ) (l : Listener) : r.Remembers (r.make l).2 :=
  fun _ l' hl' => ⟨l', listener?_make_of_made hl', fun hrevoked => hrevoked⟩

theorem remembers_modify (r : Registry ν β τ) (id : ListenerId) {f : Listener → Listener}
    (hf : ∀ l, l.revoked = true → (f l).revoked = true) : r.Remembers (r.modify id f) := by
  intro id' l hl
  rw [listener?_modify]
  split
  · exact ⟨f l, by rw [hl]; rfl, hf l⟩
  · exact ⟨l, hl, fun hrevoked => hrevoked⟩

theorem remembers_release (r : Registry ν β τ) (key : NodeKey) (t : String) (e : Entry ν β) :
    r.Remembers (r.release key t e) :=
  remembers_modify _ e.listener fun _ _ => rfl

theorem revoked_release {e : Entry ν β} {l : Listener} (h : r.listener? e.listener = some l)
    (key : NodeKey) (t : String) : (r.release key t e).Revoked e.listener := by
  refine ⟨l.revoke, ?_, rfl⟩
  rw [listener?_release, if_pos rfl, h]
  rfl

/-- An event that comes to a revoked listener comes to nothing. -/
theorem fire_of_revoked (h : r.Revoked id) : ∃ l, r.listener? id = some l ∧
    ∀ event, r.fire id event = .error (.listenerRevoked l.eventType) := by
  obtain ⟨l, hl, hrevoked⟩ := h
  refine ⟨l, hl, fun event => ?_⟩
  rw [fire, hl]
  exact if_pos hrevoked

theorem isEmpty_of_entries (h : ∀ place, r.entries.get? place = none) : r.isEmpty = true := by
  refine List.isEmpty_iff.mpr (List.eq_nil_iff_forall_not_mem.mpr fun ⟨place, e⟩ hmem => ?_)
  cases (h place).symm.trans (OrderedMap.get?_eq_some_iff.mpr hmem)

end Registry

namespace Scene

open Step (Chains Leads)

variable {H : Host δ ν β} {c c' : Scene δ ν β τ} {key : NodeKey} {t : String}
  {entry : Registry.Entry ν β}

/-- Releasing an entry does that to the registry, whether the document agrees or not. -/
theorem release_listeners (key : NodeKey) (t : String) (entry : Registry.Entry ν β)
    (c : Scene δ ν β τ) :
    Step.Ends (release H key t entry) c
      (fun _ c' => c'.listeners = c.listeners.release key t entry)
      fun _ c' => c'.listeners = c.listeners.release key t entry := by
  rw [release, Step.ends_bind, ends_modifyListeners, ends_call, Step.ends_iff]
  exact ⟨fun _ _ _ => rfl, fun _ _ _ => rfl⟩

/-- If a list has all entries, none is left after those in it are released, and nothing else of the
registry but the listeners has changed. -/
theorem releaseAll_clears (l : List ((NodeKey × String) × Registry.Entry ν β))
    (c : Scene δ ν β τ)
    (hall : ∀ place e, c.listeners.entries.get? place = some e → (place, e) ∈ l) :
    Step.Ends (releaseAll H l) c (fun _ c' => ∀ place, c'.listeners.entries.get? place = none)
      fun _ _ => False := by
  induction l generalizing c with
  | nil =>
    intro place
    exact Option.eq_none_iff_forall_ne_some.mpr fun e he => List.not_mem_nil (hall place e he)
  | cons p l ih =>
    obtain ⟨⟨key, t⟩, entry⟩ := p
    -- what is left of the list is released whether this entry was given up or not
    have rest (answer : Option Error → Option Error) (c₁ : Scene δ ν β τ)
        (h₁ : c₁.listeners = c.listeners.release key t entry) :
        Step.Ends (releaseAll H l >>= fun later => pure (answer later)) c₁
          (fun _ c' => ∀ place, c'.listeners.entries.get? place = none) fun _ _ => False := by
      rw [Step.ends_bind]
      refine (ih c₁ fun place e he => ?_).mono (fun _ _ h' => h') fun _ _ h' => h'
      rw [h₁, Registry.entries_release] at he
      split at he
      · cases he
      · rename_i hplace
        refine (List.mem_cons.mp (hall place e he)).resolve_left fun heq => ?_
        exact hplace (congrArg Prod.fst heq).symm
    rw [releaseAll, Step.ends_bind, Step.ends_outcome]
    refine (release_listeners key t entry c).mono (fun _ c₁ h₁ => ?_) fun e c₁ h₁ => ?_
    · exact rest id c₁ h₁
    · exact rest (fun _ => some e) c₁ h₁

/-- A teardown leaves no entry and no trampoline behind, whatever the document refuses. -/
theorem teardown_clears (c : Scene δ ν β τ) :
    Step.Ends (teardown H) c
      (fun _ c' => (∀ place, c'.listeners.entries.get? place = none) ∧
        c'.listeners.trampoline = none)
      fun _ c' => (∀ place, c'.listeners.entries.get? place = none) ∧
        c'.listeners.trampoline = none := by
  rw [teardown, Step.ends_bind, Step.ends_get, Step.ends_bind]
  refine (releaseAll_clears _ c fun _ _ => OrderedMap.get?_eq_some_iff.mp).mono
    (fun refusal c' h' => ?_) fun _ _ h' => h'.elim
  rw [Step.ends_bind, ends_modifyListeners]
  cases refusal with
  | none => exact ⟨h', rfl⟩
  | some e => exact ⟨h', rfl⟩

/-! ## Relations along all steps -/

/-- `S` leads along releasing an entry that is there and entering a listener where there is none,
and along all that leaves the document and the entries alone and forgets no listener. -/
structure Custody (H : Host δ ν β) (S : Scene δ ν β τ → Scene δ ν β τ → Prop) : Prop where
  chains : Chains S
  aside : ∀ {c c'}, c'.doc = c.doc → c'.listeners.entries = c.listeners.entries →
    c.listeners.Remembers c'.listeners → S c c'
  release : ∀ {c key t entry}, c.listeners.entries.get? (key, t) = some entry →
    Step.Ends (release H key t entry) c (fun _ c' => S c c') fun _ c' => S c c'
  enlist : ∀ {c key t}, c.listeners.entries.get? (key, t) = none → ∀ node handles,
    Step.Ends (enlist H key node t handles c.listeners) c (fun _ c' => S c c') fun _ c' => S c c'

namespace Custody

variable {S : Scene δ ν β τ → Scene δ ν β τ → Prop} (h : Custody H S)

include h

theorem note (c : Scene δ ν β τ) (notice : Notice) :
    S c { c with journal := c.journal.push notice } :=
  h.aside rfl rfl (Registry.remembers_of_listeners rfl)

theorem install (c : Scene δ ν β τ) (trampoline : τ) :
    S c { c with listeners := c.listeners.install trampoline } :=
  h.aside rfl rfl (Registry.remembers_of_listeners rfl)

theorem uninstall (c : Scene δ ν β τ) :
    S c { c with listeners := c.listeners.uninstall } :=
  h.aside rfl rfl (Registry.remembers_of_listeners rfl)

/-- What gives way is released, and then the place is free if nothing was refused. -/
theorem giveWay (key : NodeKey) (t : String) (c : Scene δ ν β τ) :
    Step.Ends (giveWay H key t (c.listeners.entries.get? (key, t))) c
      (fun _ c' => S c c' ∧ c'.listeners.entries.get? (key, t) = none) fun _ c' => S c c' := by
  cases he : c.listeners.entries.get? (key, t) with
  | none => exact ⟨h.chains.refl c, he⟩
  | some entry =>
    have hnoted := h.note c (.replaced key t)
    rw [Scene.giveWay, Step.ends_bind, ends_note]
    refine Step.Ends.mono (Step.Ends.and (h.release he) (release_listeners key t entry _))
      (fun _ c' h' => ?_) fun _ c' h' => h.chains.trans hnoted h'.1
    refine ⟨h.chains.trans hnoted h'.1, ?_⟩
    rw [h'.2, Registry.entries_release, if_pos rfl]

theorem attach (node : ν) (t : String) (handles : UInt32 × UInt32) :
    Leads S (Scene.attach H node t handles) := by
  intro c
  rw [attach_eq, Step.ends_bind, Step.ends_get, Step.ends_bind]
  refine (h.giveWay _ t c).mono (fun _ c₁ h₁ => ?_) fun _ _ h₁ => h₁
  rw [Step.ends_bind, Step.ends_get]
  exact (h.enlist h₁.2 node handles).mono (fun _ _ h' => h.chains.trans h₁.1 h')
    fun _ _ h' => h.chains.trans h₁.1 h'

theorem update (key : NodeKey) (t : String) (handles : UInt32 × UInt32) :
    Leads S (Scene.update key t handles) := by
  intro c
  rw [Scene.update, Step.ends_bind, Step.ends_get, Step.ends_bind, Step.ends_ofExcept,
    Registry.update]
  split
  · rename_i id hid
    refine ⟨fun r hr => ?_, nofun⟩
    cases hr
    exact h.aside rfl rfl (Registry.remembers_modify _ id fun _ hrevoked => hrevoked)
  · exact ⟨nofun, fun _ _ => h.chains.refl c⟩

theorem detach (node : ν) (t : String) : Leads S (Scene.detach H node t) := by
  intro c
  rw [detach_eq, Step.ends_bind, Step.ends_get]
  cases he : c.listeners.entries.get? (H.key c.doc node, t) with
  | none => exact h.chains.refl c
  | some entry => exact h.release he

/-- The entries of a list are there when their turn comes, because each is for another place. -/
theorem releaseAll (l : List ((NodeKey × String) × Registry.Entry ν β)) (c : Scene δ ν β τ)
    (hnodup : (l.map Prod.fst).Nodup)
    (hall : ∀ place e, (place, e) ∈ l → c.listeners.entries.get? place = some e) :
    Step.Ends (releaseAll H l) c (fun _ c' => S c c') fun _ c' => S c c' := by
  induction l generalizing c with
  | nil => exact h.chains.refl c
  | cons p l ih =>
    obtain ⟨⟨key, t⟩, entry⟩ := p
    rw [List.map_cons, List.nodup_cons] at hnodup
    have rest (answer : Option Error → Option Error) (c₁ : Scene δ ν β τ) (hS : S c c₁)
        (h₁ : c₁.listeners = c.listeners.release key t entry) :
        Step.Ends (Scene.releaseAll H l >>= fun later => pure (answer later)) c₁
          (fun _ c' => S c c') fun _ c' => S c c' := by
      rw [Step.ends_bind]
      refine (ih c₁ hnodup.2 fun place e hmem => ?_).mono (fun _ _ h' => h.chains.trans hS h')
        fun _ _ h' => h.chains.trans hS h'
      rw [h₁, Registry.entries_release, if_neg]
      · exact hall place e (List.mem_cons_of_mem _ hmem)
      · rintro rfl
        exact hnodup.1 (List.mem_map.mpr ⟨_, hmem, rfl⟩)
    rw [Scene.releaseAll, Step.ends_bind, Step.ends_outcome]
    refine Step.Ends.mono (Step.Ends.and (h.release (hall (key, t) entry List.mem_cons_self))
      (release_listeners key t entry c)) (fun _ c₁ h₁ => ?_) fun e c₁ h₁ => ?_
    · exact rest id c₁ h₁.1 h₁.2
    · exact rest (fun _ => some e) c₁ h₁.1 h₁.2

theorem teardown : Leads S (Scene.teardown H) := by
  intro c
  rw [Scene.teardown, Step.ends_bind, Step.ends_get, Step.ends_bind]
  refine (h.releaseAll _ c c.listeners.entries.nodup fun _ _ => OrderedMap.get?_eq_some_iff.mpr).mono
    (fun refusal c' h' => ?_) fun _ _ h' => h'
  rw [Step.ends_bind, ends_modifyListeners]
  cases refusal with
  | none => exact h.chains.trans h' (h.uninstall c')
  | some e => exact h.chains.trans h' (h.uninstall c')

end Custody

end Scene

end TreeEdit
