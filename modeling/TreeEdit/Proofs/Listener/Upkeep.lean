import TreeEdit.Host.Watched
import TreeEdit.Proofs.Listener.Attendance
import TreeEdit.Proofs.Machine.Steps
import TreeEdit.Proofs.OrderedMap

/-!
# Steps that keep registry and handlers in step

Attaching, updating and detaching a listener and taking all of them off are each a few changes of
the registry and calls to the document, and may stop between two of them. Wherever they stop, the
registry and the handlers are in step (`Registry.Kept`).

The document is seen through any host that binds and unbinds as a document does (`Host.Binds`); one
that is `fickle` may refuse to, for no reason of its own.
-/

namespace TreeEdit

variable {δ τ : Type} {H : Host δ NodeId Nat} {doc : δ → Document ListenerId} {fickle : Prop}

/-! ## Hosts that bind -/

/-- On the document `doc w` of its state `w` the host binds and undoes bindings as a document does.
Only a fickle host refuses to do that at a node that is there. -/
structure Host.Binds (H : Host δ NodeId Nat) (doc : δ → Document ListenerId) (fickle : Prop) :
    Prop where
  key : ∀ w n, H.key w n = n.key
  listen : ∀ w n t id, Step.Ends (H.perform (.listen n t id)) w
    (fun binding w' => (doc w').size = (doc w).size ∧ binding = (doc w).lastBinding + 1 ∧
      (doc w').lastBinding = (doc w).lastBinding + 1 ∧
      (doc w').handlers = Function.update (doc w).handlers n
        ((doc w).handlers n ++ [⟨t, (doc w).lastBinding + 1, id⟩]))
    fun _ w' => (doc w').handlers = (doc w).handlers ∧
      (doc w).lastBinding ≤ (doc w').lastBinding ∧ (fickle ∨ ¬ (doc w).Known n)
  unlisten : ∀ w n t binding, Step.Ends (H.perform (.unlisten n t binding)) w
    (fun _ w' => (doc w').size = (doc w).size ∧ (doc w').lastBinding = (doc w).lastBinding ∧
      (doc w').handlers = Function.update (doc w).handlers n
        (((doc w).handlers n).filter (·.binding ≠ binding)))
    fun _ w' => (doc w').handlers = (doc w).handlers ∧
      (doc w).lastBinding ≤ (doc w').lastBinding ∧ (fickle ∨ ¬ (doc w).Known n)

theorem Document.binds_host : (Document.host id).Binds id False where
  key _ _ := rfl
  listen w n t listener := by
    refine (Document.listen_ends n t listener).mono (fun _ _ h => h) fun _ _ h => ?_
    exact ⟨h.1, h.2.1, .inr h.2.2⟩
  unlisten w n t binding := by
    refine (Document.unlisten_ends n binding).mono (fun _ _ h => h) fun _ _ h => ?_
    exact ⟨h.1, h.2.1, .inr h.2.2⟩

/-- A refusal of a watched host comes from the watch or from the host. -/
theorem Host.ends_watched {refuse : Nat → Option HostError} {w : Watched δ NodeId Nat} {k : Reply}
    {c : HostCall NodeId Nat k} {Q : k.Of NodeId Nat → Watched δ NodeId Nat → Prop}
    {E : HostError → Watched δ NodeId Nat → Prop}
    (hE : ∀ e calls, E e ⟨w.doc, calls⟩)
    (h : ∀ calls, Step.Ends (H.perform c) w.doc (fun a d => Q a ⟨d, calls⟩)
      fun e d => E e ⟨d, calls⟩) :
    Step.Ends ((H.watched refuse).perform c) w Q E := by
  have hd := h (w.calls.push ⟨k, c⟩)
  unfold Step.Ends Host.watched
  dsimp only
  cases refuse (w.calls.push ⟨k, c⟩).size with
  | some e => exact hE e _
  | none =>
    unfold Step.Ends at hd
    cases hc : H.perform c w.doc with
    | ok a d =>
      rw [hc] at hd
      exact hd
    | error e d =>
      rw [hc] at hd
      exact hd

theorem Host.Binds.watched (h : H.Binds doc fickle) (refuse : Nat → Option HostError) :
    (H.watched refuse).Binds (fun w => doc w.doc) True where
  key w n := h.key w.doc n
  listen w n t id := by
    refine Host.ends_watched (fun _ _ => ⟨rfl, le_rfl, .inl trivial⟩) fun calls => ?_
    exact (h.listen w.doc n t id).mono (fun _ _ hd => hd) fun _ _ hd => ⟨hd.1, hd.2.1, .inl trivial⟩
  unlisten w n t binding := by
    refine Host.ends_watched (fun _ _ => ⟨rfl, le_rfl, .inl trivial⟩) fun calls => ?_
    exact (h.unlisten w.doc n t binding).mono (fun _ _ hd => hd)
      fun _ _ hd => ⟨hd.1, hd.2.1, .inl trivial⟩

namespace Scene

open Registry (Kept Attended)

variable {c : Scene δ NodeId Nat τ} {key : NodeKey} {t : String}
  {entry : Registry.Entry NodeId Nat} {n : NodeId}

/-- The scene is one in which registry and handlers are in step. -/
def InStep (doc : δ → Document ListenerId) (fickle : Prop) (c : Scene δ NodeId Nat τ) : Prop :=
  Attended fickle (doc c.doc) c.listeners

/-- A step has led from `c` to `c'` and kept registry and handlers in step. -/
def Keeps (doc : δ → Document ListenerId) (fickle : Prop) (c c' : Scene δ NodeId Nat τ) : Prop :=
  Kept fickle c.listeners (doc c'.doc) c'.listeners

theorem release_ends (hH : H.Binds doc fickle) (h : c.InStep doc fickle)
    (he : c.listeners.entries.get? (key, t) = some entry) :
    Step.Ends (release H key t entry) c
      (fun _ c' => c.Keeps doc fickle c' ∧ c'.listeners = c.listeners.release key t entry ∧
        (doc c'.doc).size = (doc c.doc).size)
      fun _ c' => c.Keeps doc fickle c' ∧ c'.listeners = c.listeners.release key t entry ∧
        fickle := by
  rw [release, Step.ends_bind, ends_modifyListeners, ends_call]
  refine (hH.unlisten c.doc entry.node t entry.binding).mono (fun _ w hw => ?_) fun e w hw => ?_
  · exact ⟨h.takenOff he hw.2.2 hw.2.1, rfl, hw.1⟩
  · obtain ⟨hhandlers, hbinding, hwhy⟩ := hw
    -- the handler that is to be taken off shows that its node is there
    have hf : fickle := hwhy.resolve_right fun hun =>
      hun (Document.known_of_handler (h.bound he))
    have hdropped := h.dropped he hf
    exact ⟨⟨hdropped.attended.of_handlers hhandlers hbinding, hdropped.continues⟩, rfl, hf⟩

/-- The second half of attaching: a listener is made, bound and put in use. -/
theorem listen_ends (hH : H.Binds doc fickle) (h : c.InStep doc fickle)
    (hfree : c.listeners.entries.get? (n.key, t) = none) (handles : UInt32 × UInt32) :
    Step.Ends (do
        let (id, listeners) := (← get).listeners.make (.fresh t n.key handles)
        modifyListeners fun _ => listeners
        let binding ← call H (.listen n t id)
        modifyListeners (·.enter n.key t ⟨id, n, binding⟩)) c
      (fun _ c' => c.Keeps doc fickle c' ∧ c'.listeners.trampoline = c.listeners.trampoline ∧
        ∀ key' t', c'.listeners.handles? key' t'
          = if (n.key, t) = (key', t') then some handles else c.listeners.handles? key' t')
      fun _ c' => c.Keeps doc fickle c' ∧ c'.listeners.trampoline = c.listeners.trampoline ∧
        (fickle ∨ ¬ (doc c.doc).Known n) := by
  rw [Step.ends_bind, Step.ends_get, Step.ends_bind, ends_modifyListeners, Step.ends_bind,
    ends_call]
  have hmade := h.make (.fresh t n.key handles)
  have hnew : (c.listeners.make (.fresh t n.key handles)).2.listener?
      (c.listeners.make (.fresh t n.key handles)).1 = some (.fresh t n.key handles) := by
    rw [Registry.listener?_make, if_pos rfl]
  have hunbound (n' : NodeId) (x : Handler ListenerId) (hx : x ∈ (doc c.doc).handlers n') :
      x.callback ≠ (c.listeners.make (.fresh t n.key handles)).1 := by
    intro hc
    have hlt := h.callback_made hx
    rw [hc] at hlt
    exact Nat.lt_irrefl _ hlt
  refine (hH.listen c.doc n t _).mono (fun binding w hw => ?_) fun e w hw => ?_
  · obtain ⟨-, rfl, hbinding, hhandlers⟩ := hw
    rw [ends_modifyListeners]
    refine ⟨hmade.trans (hmade.attended.entered hnew ⟨rfl, rfl, rfl⟩ hfree hunbound hhandlers
      hbinding), rfl, fun key' t' => ?_⟩
    rw [Registry.handles?_enter, hnew, h.handles?_make]
    rfl
  · obtain ⟨hhandlers, hbinding, hwhy⟩ := hw
    exact ⟨⟨hmade.attended.of_handlers hhandlers hbinding, hmade.continues⟩, rfl, hwhy⟩

theorem attach_ends (hH : H.Binds doc fickle) (h : c.InStep doc fickle) (n : NodeId) (t : String)
    (handles : UInt32 × UInt32) :
    Step.Ends (attach H n t handles) c
      (fun _ c' => c.Keeps doc fickle c' ∧ c'.listeners.trampoline = c.listeners.trampoline ∧
        ∀ key' t', c'.listeners.handles? key' t'
          = if (n.key, t) = (key', t') then some handles else c.listeners.handles? key' t')
      fun _ c' => c.Keeps doc fickle c' ∧ c'.listeners.trampoline = c.listeners.trampoline ∧
        (fickle ∨ ¬ (doc c.doc).Known n) := by
  rw [attach, Step.ends_bind, Step.ends_get, Step.ends_bind, Step.ends_get, hH.key]
  split
  · rename_i entry he
    rw [Step.ends_bind, ends_note, Step.ends_bind]
    have hrelease := release_ends (c := { c with journal := c.journal.push (.replaced n.key t) })
      hH h he
    refine hrelease.mono (fun _ c₁ h₁ => ?_) fun e c₁ h₁ => ?_
    · obtain ⟨hkeeps, hlisteners, hsize⟩ := h₁
      have hfree : c₁.listeners.entries.get? (n.key, t) = none := by
        rw [hlisteners, Registry.entries_release, if_pos rfl]
      refine (listen_ends hH hkeeps.attended hfree handles).mono (fun _ c' h' => ?_)
        fun e c' h' => ?_
      · obtain ⟨hkeeps', htrampoline, hhandles⟩ := h'
        refine ⟨hkeeps.trans hkeeps', ?_, fun key' t' => ?_⟩
        · rw [htrampoline, hlisteners]
          rfl
        · rw [hhandles, hlisteners, h.handles?_release he]
          split <;> rfl
      · obtain ⟨hkeeps', htrampoline, hwhy⟩ := h'
        refine ⟨hkeeps.trans hkeeps', ?_, hwhy.imp_right fun hun hk => hun ?_⟩
        · rw [htrampoline, hlisteners]
          rfl
        · rw [Document.Known, hsize]
          exact hk
    · obtain ⟨hkeeps, hlisteners, hf⟩ := h₁
      refine ⟨hkeeps, ?_, .inl hf⟩
      rw [hlisteners]
      rfl
  · rename_i hfree
    exact listen_ends hH h hfree handles

theorem update_ends (h : c.InStep doc fickle) (key : NodeKey) (t : String)
    (handles : UInt32 × UInt32) :
    Step.Ends (update key t handles) c
      (fun _ c' => c.Keeps doc fickle c' ∧ c'.listeners.trampoline = c.listeners.trampoline ∧
        c.listeners.handles? key t ≠ none ∧
        ∀ key' t', c'.listeners.handles? key' t'
          = if (key, t) = (key', t') then some handles else c.listeners.handles? key' t')
      fun e c' => e = .missingListener t ∧ c' = c ∧ c.listeners.handles? key t = none := by
  rw [update, Step.ends_bind, Step.ends_get, Step.ends_bind, Step.ends_ofExcept, Registry.update]
  split
  · rename_i id hid
    refine ⟨fun r hr => ?_, nofun⟩
    cases hr
    refine ⟨h.modified hid handles, rfl, ?_, h.handles?_modified hid handles⟩
    obtain ⟨e, he, -⟩ := Registry.entry_of_find? hid
    rw [Ne, Registry.handles?_eq_none_iff h, he]
    exact nofun
  · rename_i hid
    refine ⟨nofun, fun e he => ?_⟩
    cases he
    refine ⟨rfl, rfl, ?_⟩
    rw [Registry.handles?, hid]
    rfl

theorem detach_ends (hH : H.Binds doc fickle) (h : c.InStep doc fickle) (n : NodeId)
    (t : String) :
    Step.Ends (detach H n t) c
      (fun _ c' => c.Keeps doc fickle c' ∧ c'.listeners.trampoline = c.listeners.trampoline ∧
        c.listeners.handles? n.key t ≠ none ∧
        ∀ key' t', c'.listeners.handles? key' t'
          = if (n.key, t) = (key', t') then none else c.listeners.handles? key' t')
      fun e c' =>
        (e = .missingListener t ∧ c' = c ∧ c.listeners.handles? n.key t = none) ∨
        (fickle ∧ c.Keeps doc fickle c') := by
  rw [detach, Step.ends_bind, Step.ends_get, Step.ends_bind, Step.ends_get, hH.key]
  split
  · rename_i entry he
    refine (release_ends hH h he).mono (fun _ c' h' => ?_) fun e c' h' => .inr ⟨h'.2.2, h'.1⟩
    obtain ⟨hkeeps, hlisteners, -⟩ := h'
    refine ⟨hkeeps, ?_, ?_, fun key' t' => ?_⟩
    · rw [hlisteners]
      rfl
    · rw [Ne, Registry.handles?_eq_none_iff h, he]
      exact Option.some_ne_none entry
    · rw [hlisteners]
      exact h.handles?_release he key' t'
  · rename_i he
    exact .inl ⟨rfl, rfl, (Registry.handles?_eq_none_iff h).mpr he⟩

/-- The entries of a list of entries are taken out whatever the document refuses. -/
theorem releaseAll_ends (hH : H.Binds doc fickle)
    (l : List ((NodeKey × String) × Registry.Entry NodeId Nat)) (h : c.InStep doc fickle)
    (hnodup : (l.map Prod.fst).Nodup)
    (hin : ∀ p ∈ l, c.listeners.entries.get? p.1 = some p.2) :
    Step.Ends (releaseAll H l) c
      (fun refusal c' => c.Keeps doc fickle c' ∧ (refusal ≠ none → fickle) ∧
        ∀ p, c'.listeners.entries.get? p
          = if p ∈ l.map Prod.fst then none else c.listeners.entries.get? p)
      fun _ _ => False := by
  induction l generalizing c with
  | nil =>
    refine ⟨⟨h, .of_same rfl rfl⟩, fun hne => absurd rfl hne, fun p => ?_⟩
    rw [List.map_nil, if_neg List.not_mem_nil]
  | cons p l ih =>
    obtain ⟨⟨key, t⟩, entry⟩ := p
    rw [List.map_cons, List.nodup_cons] at hnodup
    have he := hin _ List.mem_cons_self
    -- what is left of the list is taken out whether this entry could be unbound or not
    have rest (answer : Option Error → Option Error) (c₁ : Scene δ NodeId Nat τ)
        (hkeeps : c.Keeps doc fickle c₁)
        (hlisteners : c₁.listeners = c.listeners.release key t entry)
        (hanswer : ∀ refusal, (refusal ≠ none → fickle) → answer refusal ≠ none → fickle) :
        Step.Ends (releaseAll H l >>= fun later => pure (answer later)) c₁
          (fun refusal c' => c.Keeps doc fickle c' ∧ (refusal ≠ none → fickle) ∧
            ∀ p, c'.listeners.entries.get? p
              = if p ∈ (key, t) :: l.map Prod.fst then none else c.listeners.entries.get? p)
          fun _ _ => False := by
      have hin₁ (p) (hp : p ∈ l) : c₁.listeners.entries.get? p.1 = some p.2 := by
        rw [hlisteners, Registry.entries_release, if_neg, hin p (List.mem_cons_of_mem _ hp)]
        intro hk
        exact hnodup.1 (List.mem_map.mpr ⟨p, hp, hk.symm⟩)
      rw [Step.ends_bind]
      refine (ih hkeeps.attended hnodup.2 hin₁).mono (fun refusal c' h' => ?_) fun _ _ h' => h'
      obtain ⟨hkeeps', hrefusal, hentries⟩ := h'
      refine ⟨hkeeps.trans hkeeps', hanswer refusal hrefusal, fun p => ?_⟩
      rw [hentries, hlisteners, Registry.entries_release]
      by_cases hp : p ∈ l.map Prod.fst
      · rw [if_pos hp, if_pos (List.mem_cons_of_mem _ hp)]
      · simp only [if_neg hp, List.mem_cons, or_iff_left hp, eq_comm]
    rw [releaseAll, Step.ends_bind, Step.ends_outcome]
    refine (release_ends hH h he).mono (fun _ c₁ h₁ => ?_) fun e c₁ h₁ => ?_
    · exact rest id c₁ h₁.1 h₁.2.1 fun _ h => h
    · exact rest (fun _ => some e) c₁ h₁.1 h₁.2.1 fun _ _ _ => h₁.2.2

theorem teardown_ends (hH : H.Binds doc fickle) (h : c.InStep doc fickle) :
    Step.Ends (teardown H) c
      (fun _ c' => c.Keeps doc fickle c' ∧ c'.listeners.trampoline = none ∧
        ∀ p, c'.listeners.entries.get? p = none)
      fun _ c' => c.Keeps doc fickle c' ∧ c'.listeners.trampoline = none ∧
        (∀ p, c'.listeners.entries.get? p = none) ∧ fickle := by
  rw [teardown, Step.ends_bind, Step.ends_get, Step.ends_bind]
  have hin (p) (hp : p ∈ c.listeners.entries.entries) :
      c.listeners.entries.get? p.1 = some p.2 := OrderedMap.get?_eq_some_iff.mpr hp
  refine (releaseAll_ends hH _ h c.listeners.entries.nodup hin).mono (fun refusal c' h' => ?_)
    fun _ _ h' => h'.elim
  obtain ⟨hkeeps, hrefusal, hentries⟩ := h'
  have hgone (p : NodeKey × String) : c'.listeners.entries.get? p = none := by
    rw [hentries]
    split
    · rfl
    · rename_i hp
      by_contra he
      obtain ⟨e, he⟩ := Option.ne_none_iff_exists'.mp he
      exact hp (List.mem_map.mpr ⟨_, OrderedMap.get?_eq_some_iff.mp he, rfl⟩)
  rw [Step.ends_bind, ends_modifyListeners]
  have hbare : c.Keeps doc fickle { c' with listeners := c'.listeners.uninstall } :=
    hkeeps.trans (hkeeps.attended.of_same rfl rfl)
  cases refusal with
  | none => exact ⟨hbare, rfl, hgone⟩
  | some e => exact ⟨hbare, rfl, hgone, hrefusal (Option.some_ne_none e)⟩

end Scene

end TreeEdit
