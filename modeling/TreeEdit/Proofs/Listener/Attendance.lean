import TreeEdit.Listener.Registry
import TreeEdit.Proofs.Document.Handlers

/-!
# Registries and handlers in step

The registry of a session and the handlers of its document say the same thing twice: which listener
is called for a node and a type of event. `Attended` is what holds of the two between the steps that
keep them. A listener in use has exactly one handler (`Attended.handlers_of_inUse`), and a handler
belongs to a listener in use, or, if the document is `fickle` and may have refused to undo a
binding, to one that was taken off for good.

The rest of the module is one lemma for each change of a registry: what it makes of `Attended`,
of the listeners there were before (`Continues`), and of the handles that are given back with an
event (`handles?`).
-/

namespace TreeEdit.Registry

section Looking

variable {ν β τ : Type} {r r' r'' : Registry ν β τ}

/-- The listener was taken off for good. -/
def Retired (r : Registry ν β τ) (id : ListenerId) : Prop :=
  ∃ l, r.listener? id = some l ∧ l.revoked = true ∧ l.handles = (0, 0)

/-- What the owner of the listener in use for a node and a type wants back with each event. -/
def handles? (r : Registry ν β τ) (key : NodeKey) (eventType : String) :
    Option (UInt32 × UInt32) :=
  (r.find? key eventType).bind fun id => (r.listener? id).map (·.handles)

theorem made_of_listener? {id : ListenerId} {l : Listener} (h : r.listener? id = some l) :
    id.index < r.listeners.size :=
  (Array.getElem?_eq_some_iff.mp h).1

theorem find?_of_entry {key : NodeKey} {t : String} {e : Entry ν β}
    (h : r.entries.get? (key, t) = some e) : r.find? key t = some e.listener := by
  rw [find?, h]
  rfl

theorem entry_of_find? {key : NodeKey} {t : String} {id : ListenerId}
    (h : r.find? key t = some id) :
    ∃ e, r.entries.get? (key, t) = some e ∧ e.listener = id :=
  Option.map_eq_some_iff.mp h

/-! ## Look-ups after changes -/

theorem entries_release (key : NodeKey) (t : String) (e : Entry ν β) (place : NodeKey × String) :
    (r.release key t e).entries.get? place
      = if (key, t) = place then none else r.entries.get? place :=
  OrderedMap.get?_erase _ _ _

theorem entries_enter (key : NodeKey) (t : String) (e : Entry ν β) (place : NodeKey × String) :
    (r.enter key t e).entries.get? place
      = if (key, t) = place then some e else r.entries.get? place :=
  OrderedMap.get?_put _ _ _ _

theorem listener?_release (key : NodeKey) (t : String) (e : Entry ν β) (id : ListenerId) :
    (r.release key t e).listener? id
      = if e.listener = id then (r.listener? id).map Listener.revoke else r.listener? id :=
  listener?_modify _ _ _ _

theorem listener?_make (l : Listener) (id : ListenerId) :
    (r.make l).2.listener? id
      = if id = (r.make l).1 then some l else r.listener? id := by
  simp only [listener?, make, Array.getElem?_push, ListenerId.ext_iff]

theorem listener?_make_of_made {l l' : Listener} {id : ListenerId}
    (h : r.listener? id = some l') : (r.make l).2.listener? id = some l' := by
  rw [listener?_make, if_neg, h]
  rintro rfl
  exact Nat.lt_irrefl _ (made_of_listener? h)

/-! ## Listeners from one registry to a later one -/

/-- No listener is forgotten or given to another node or type. Those that were taken off stay as
they are, and those in use stay so or are taken off. -/
structure Continues (r r' : Registry ν β τ) : Prop where
  made : ∀ {id l}, r.listener? id = some l →
    ∃ l', r'.listener? id = some l' ∧ l'.node = l.node ∧ l'.eventType = l.eventType
  retired : ∀ {id}, r.Retired id → r'.listener? id = r.listener? id
  inUse : ∀ {key t id}, r.find? key t = some id → r'.find? key t = some id ∨ r'.Retired id

namespace Continues

theorem stays (h : r.Continues r') {id : ListenerId} (hid : r.Retired id) : r'.Retired id := by
  obtain ⟨l, hl, hrest⟩ := hid
  exact ⟨l, (h.retired ⟨l, hl, hrest⟩).trans hl, hrest⟩

theorem of_same (hl : r'.listeners = r.listeners) (he : r'.entries = r.entries) :
    r.Continues r' := by
  have hlistener (id : ListenerId) : r'.listener? id = r.listener? id := by
    rw [listener?, hl]
    rfl
  refine ⟨fun {id l} h => ⟨l, (hlistener id).trans h, rfl, rfl⟩, fun {id} _ => hlistener id,
    fun {key t id} h => .inl ?_⟩
  rwa [find?, he]

theorem trans (h : r.Continues r') (h' : r'.Continues r'') : r.Continues r'' where
  made hl := by
    obtain ⟨l', hl', hn', ht'⟩ := h.made hl
    obtain ⟨l'', hl'', hn'', ht''⟩ := h'.made hl'
    exact ⟨l'', hl'', hn''.trans hn', ht''.trans ht'⟩
  retired hid := (h'.retired (h.stays hid)).trans (h.retired hid)
  inUse hid := by
    rcases h.inUse hid with hid' | hid'
    · exact h'.inUse hid'
    · exact .inr (h'.stays hid')

end Continues

end Looking

/-! ## The invariant -/

variable {τ : Type} {fickle : Prop} {d d' : Document ListenerId} {r r' : Registry NodeId Nat τ}
  {key key' : NodeKey} {t t' : String} {e e' : Entry NodeId Nat}

/-- Handlers and entries say the same, up to handlers that a fickle document would not give up. -/
structure Attended (fickle : Prop) (d : Document ListenerId) (r : Registry NodeId Nat τ) :
    Prop where
  /-- A listener in use is the one made for its node and type, and not revoked. -/
  inUse : ∀ {key t e}, r.entries.get? (key, t) = some e →
    e.node.key = key ∧
      ∃ l, r.listener? e.listener = some l ∧ l.node = key ∧ l.eventType = t ∧ l.revoked = false
  bound : ∀ {key t e}, r.entries.get? (key, t) = some e →
    (⟨t, e.binding, e.listener⟩ : Handler ListenerId) ∈ d.handlers e.node
  bindings : ∀ n, ((d.handlers n).map (·.binding)).Nodup
  callbacks : ∀ n, ((d.handlers n).map (·.callback)).Nodup
  /-- The next binding is a new one. -/
  spent : ∀ {n h}, h ∈ d.handlers n → h.binding ≤ d.lastBinding
  owned : ∀ {n h}, h ∈ d.handlers n →
    r.entries.get? (n.key, h.eventType) = some ⟨h.callback, n, h.binding⟩ ∨
      fickle ∧ r.Retired h.callback

/-- What a step has made of a registry and a document that were in step. -/
structure Kept (fickle : Prop) (r : Registry NodeId Nat τ) (d' : Document ListenerId)
    (r' : Registry NodeId Nat τ) : Prop where
  attended : Attended fickle d' r'
  continues : r.Continues r'

theorem Kept.trans {r'' : Registry NodeId Nat τ} {d'' : Document ListenerId}
    (h : Kept fickle r d' r') (h' : Kept fickle r' d'' r'') : Kept fickle r d'' r'' :=
  ⟨h'.attended, h.continues.trans h'.continues⟩

namespace Attended

theorem start (h : ∀ n, d.handlers n = []) :
    Attended fickle d (Registry.empty : Registry NodeId Nat τ) where
  inUse he := by cases he
  bound he := by cases he
  bindings n := by
    rw [h n]
    exact .nil
  callbacks n := by
    rw [h n]
    exact .nil
  spent {n _} hh := by
    rw [h n] at hh
    cases hh
  owned {n _} hh := by
    rw [h n] at hh
    cases hh

theorem listener_ne_of_retired (h : Attended fickle d r) (he : r.entries.get? (key, t) = some e)
    {id : ListenerId} (hid : r.Retired id) : e.listener ≠ id := by
  rintro rfl
  obtain ⟨-, l, hl, -, -, hlive⟩ := h.inUse he
  obtain ⟨l', hl', hrevoked, -⟩ := hid
  cases hl.symm.trans hl'
  exact absurd (hlive.symm.trans hrevoked) nofun

/-- A listener is in use in one place only. -/
theorem same_place (h : Attended fickle d r) (he : r.entries.get? (key, t) = some e)
    (he' : r.entries.get? (key', t') = some e') (hl : e.listener = e'.listener) :
    (key, t) = (key', t') := by
  obtain ⟨-, l, hl₁, rfl, rfl, -⟩ := h.inUse he
  obtain ⟨-, l', hl₂, rfl, rfl, -⟩ := h.inUse he'
  rw [hl] at hl₁
  cases hl₁.symm.trans hl₂
  rfl

/-- The number of a listener that is made next has no handler yet. -/
theorem callback_made (h : Attended fickle d r) {n : NodeId} {x : Handler ListenerId}
    (hx : x ∈ d.handlers n) : x.callback.index < r.listeners.size := by
  rcases h.owned hx with he | ⟨-, l, hl, -⟩
  · obtain ⟨-, l, hl, -⟩ := h.inUse he
    exact made_of_listener? hl
  · exact made_of_listener? hl

/-- What an entry says about its handler is all that there is about its listener. -/
theorem handler_of_inUse (h : Attended fickle d r) (he : r.entries.get? (key, t) = some e)
    {n : NodeId} {x : Handler ListenerId} (hx : x ∈ d.handlers n) (hc : x.callback = e.listener) :
    n = e.node ∧ x = ⟨t, e.binding, e.listener⟩ := by
  rcases h.owned hx with he' | ⟨-, hretired⟩
  · cases h.same_place he he' hc.symm
    cases he.symm.trans he'
    exact ⟨rfl, rfl⟩
  · exact absurd hc.symm (h.listener_ne_of_retired he hretired)

/-- If only one handler of a node is as wanted, it is found alone. -/
theorem filter_handlers (h : Attended fickle d r) {n : NodeId} {x : Handler ListenerId}
    (hx : x ∈ d.handlers n) {p : Handler ListenerId → Bool} (hp : p x = true)
    (honly : ∀ y ∈ d.handlers n, p y = true → y = x) : (d.handlers n).filter p = [x] := by
  have hnodup := ((h.callbacks n).of_map _).filter p
  refine List.perm_singleton.mp ((List.perm_ext_iff_of_nodup hnodup (List.nodup_singleton _)).mpr
    fun y => ?_)
  rw [List.mem_filter, List.mem_singleton]
  constructor
  · rintro ⟨hy, hpy⟩
    exact honly y hy hpy
  · rintro rfl
    exact ⟨hx, hp⟩

/-- A listener in use has one handler at its node. -/
theorem handlers_of_inUse (h : Attended fickle d r) (he : r.entries.get? (key, t) = some e) :
    (d.handlers e.node).filter (·.callback = e.listener) = [⟨t, e.binding, e.listener⟩] :=
  h.filter_handlers (h.bound he) (decide_eq_true rfl) fun _ hy hpy =>
    (h.handler_of_inUse he hy (of_decide_eq_true hpy)).2

/-- If nothing was ever refused, the handlers of a node for a type are that of its listener. -/
theorem handlers_of_type (h : Attended False d r) (n : NodeId) (t : String) :
    (d.handlers n).filter (·.eventType = t)
      = ((r.entries.get? (n.key, t)).map fun e => ⟨t, e.binding, e.listener⟩).toList := by
  have howner (y : Handler ListenerId) (hy : y ∈ d.handlers n)
      (hpy : decide (y.eventType = t) = true) :
      r.entries.get? (n.key, t) = some ⟨y.callback, n, y.binding⟩ := by
    have howned := (h.owned hy).resolve_right And.left
    rwa [of_decide_eq_true hpy] at howned
  cases he : r.entries.get? (n.key, t) with
  | none =>
    refine List.filter_eq_nil_iff.mpr fun y hy hpy => ?_
    rw [howner y hy hpy] at he
    cases he
  | some e =>
    obtain ⟨hkey, -⟩ := h.inUse he
    have hn : e.node = n := NodeId.ext (NodeKey.mk.inj hkey)
    have hbound := h.bound he
    rw [hn] at hbound
    refine h.filter_handlers hbound (decide_eq_true rfl) fun y hy hpy => ?_
    have hentry := (howner y hy hpy).symm.trans he
    cases hentry
    rw [← of_decide_eq_true hpy]

/-! ### The changes -/

/-- What happens to a document elsewhere. -/
theorem of_handlers (h : Attended fickle d r) (hd : d'.handlers = d.handlers)
    (hb : d.lastBinding ≤ d'.lastBinding) : Attended fickle d' r where
  inUse := h.inUse
  bound he := by
    rw [hd]
    exact h.bound he
  bindings n := by
    rw [hd]
    exact h.bindings n
  callbacks n := by
    rw [hd]
    exact h.callbacks n
  spent hx := by
    rw [hd] at hx
    exact (h.spent hx).trans hb
  owned hx := by
    rw [hd] at hx
    exact h.owned hx

/-- A change of the registry that is not about listeners. -/
theorem of_same (h : Attended fickle d r) (hl : r'.listeners = r.listeners)
    (he : r'.entries = r.entries) : Kept fickle r d r' := by
  have hc := Continues.of_same hl he
  have hlistener (id : ListenerId) : r'.listener? id = r.listener? id := by
    rw [listener?, hl]
    rfl
  refine ⟨⟨fun {key t e} hin => ?_, fun {key t e} hin => ?_, h.bindings, h.callbacks, h.spent,
    fun {n x} hx => ?_⟩, hc⟩
  · rw [he] at hin
    rw [hlistener]
    exact h.inUse hin
  · rw [he] at hin
    exact h.bound hin
  · rw [he]
    exact (h.owned hx).imp_right fun hf => ⟨hf.1, hc.stays hf.2⟩

theorem make (h : Attended fickle d r) (l : Listener) : Kept fickle r d (r.make l).2 := by
  have hc : r.Continues (r.make l).2 := by
    refine ⟨fun {id l'} hl => ⟨l', listener?_make_of_made hl, rfl, rfl⟩, fun {id} hid => ?_,
      fun {key t id} hid => .inl hid⟩
    obtain ⟨l', hl', -⟩ := hid
    rw [hl', listener?_make_of_made hl']
  refine ⟨⟨fun {key t e} hin => ?_, h.bound, h.bindings, h.callbacks, h.spent,
    fun {n x} hx => ?_⟩, hc⟩
  · obtain ⟨hkey, l', hl', hrest⟩ := h.inUse hin
    exact ⟨hkey, l', listener?_make_of_made hl', hrest⟩
  · exact (h.owned hx).imp_right fun hf => ⟨hf.1, hc.stays hf.2⟩

/-- What an entry that stays has to do with one that is taken out. -/
theorem entry_of_release (h : Attended fickle d r) (he : r.entries.get? (key, t) = some e)
    (he' : (r.release key t e).entries.get? (key', t') = some e') :
    (key, t) ≠ (key', t') ∧ r.entries.get? (key', t') = some e' ∧ e.listener ≠ e'.listener := by
  rw [entries_release] at he'
  split at he'
  · cases he'
  · rename_i hne
    exact ⟨hne, he', fun hl => hne (h.same_place he he' hl)⟩

theorem retired_release (h : Attended fickle d r) (he : r.entries.get? (key, t) = some e) :
    (r.release key t e).Retired e.listener := by
  obtain ⟨-, l, hl, -⟩ := h.inUse he
  refine ⟨l.revoke, ?_, rfl, rfl⟩
  rw [listener?_release, if_pos rfl, hl]
  rfl

theorem continues_release (h : Attended fickle d r) (he : r.entries.get? (key, t) = some e) :
    r.Continues (r.release key t e) := by
  refine ⟨fun {id l} hl => ?_, fun {id} hid => ?_, fun {key' t' id} hid => ?_⟩
  · rw [listener?_release, hl]
    split
    · exact ⟨l.revoke, rfl, rfl, rfl⟩
    · exact ⟨l, rfl, rfl, rfl⟩
  · rw [listener?_release, if_neg (h.listener_ne_of_retired he hid)]
  · rw [find?_release]
    split
    · rename_i hk
      cases hk
      cases (find?_of_entry he).symm.trans hid
      exact .inr (h.retired_release he)
    · exact .inl hid

theorem inUse_release (h : Attended fickle d r) (he : r.entries.get? (key, t) = some e)
    (he' : (r.release key t e).entries.get? (key', t') = some e') :
    e'.node.key = key' ∧ ∃ l, (r.release key t e).listener? e'.listener = some l ∧
      l.node = key' ∧ l.eventType = t' ∧ l.revoked = false := by
  obtain ⟨-, hold, hne⟩ := h.entry_of_release he he'
  rw [listener?_release, if_neg hne]
  exact h.inUse hold

/-- The handler of the entry that is taken out is the one that has lost its owner. -/
theorem owned_release (h : Attended fickle d r) (he : r.entries.get? (key, t) = some e)
    {n : NodeId} {x : Handler ListenerId} (hx : x ∈ d.handlers n) :
    ((r.release key t e).entries.get? (n.key, x.eventType) = some ⟨x.callback, n, x.binding⟩ ∨
      fickle ∧ (r.release key t e).Retired x.callback) ∨
    n = e.node ∧ x.binding = e.binding ∧ (r.release key t e).Retired x.callback := by
  rcases h.owned hx with hin | ⟨hf, hid⟩
  · by_cases hk : (key, t) = (n.key, x.eventType)
    · cases hk
      cases he.symm.trans hin
      exact .inr ⟨rfl, rfl, h.retired_release he⟩
    · rw [entries_release, if_neg hk]
      exact .inl (.inl hin)
  · exact .inl (.inr ⟨hf, (h.continues_release he).stays hid⟩)

/-- An entry is taken out, and the document does not undo the binding. -/
theorem dropped (h : Attended fickle d r) (he : r.entries.get? (key, t) = some e) (hf : fickle) :
    Kept fickle r d (r.release key t e) := by
  refine ⟨⟨h.inUse_release he, fun {key' t' e'} he' => ?_, h.bindings, h.callbacks, h.spent,
    fun {n x} hx => ?_⟩, h.continues_release he⟩
  · exact h.bound (h.entry_of_release he he').2.1
  · exact (h.owned_release he hx).elim id fun hlost => .inr ⟨hf, hlost.2.2⟩

/-- An entry is taken out, and the document undoes the binding. -/
theorem takenOff (h : Attended fickle d r) (he : r.entries.get? (key, t) = some e)
    (hd : d'.handlers = Function.update d.handlers e.node
      ((d.handlers e.node).filter (·.binding ≠ e.binding)))
    (hb : d'.lastBinding = d.lastBinding) : Kept fickle r d' (r.release key t e) := by
  have hsub (n : NodeId) : (d'.handlers n).Sublist (d.handlers n) := by
    rw [hd, Function.update_apply]
    split
    · rename_i hn
      rw [hn]
      exact List.filter_sublist
    · exact List.Sublist.refl _
  refine ⟨⟨h.inUse_release he, fun {key' t' e'} he' => ?_,
    fun n => (h.bindings n).sublist ((hsub n).map _),
    fun n => (h.callbacks n).sublist ((hsub n).map _), fun {n x} hx => ?_,
    fun {n x} hx => ?_⟩, h.continues_release he⟩
  · obtain ⟨hne, hold, hl⟩ := h.entry_of_release he he'
    have hmem := h.bound hold
    rw [hd, Function.update_apply]
    split
    · rename_i hn
      -- two handlers of one node with one binding would be the same handler
      rw [hn] at hmem
      refine List.mem_filter.mpr ⟨hmem, decide_eq_true fun hbinding => hl ?_⟩
      have hsame := List.inj_on_of_nodup_map (h.bindings e.node) hmem (h.bound he) hbinding
      exact (congrArg Handler.callback hsame).symm
    · exact hmem
  · rw [hb]
    exact h.spent ((hsub n).subset hx)
  · rcases h.owned_release he ((hsub n).subset hx) with howned | ⟨rfl, hbinding, -⟩
    · exact howned
    · rw [hd, Function.update_self] at hx
      exact absurd hbinding (of_decide_eq_true (List.mem_filter.mp hx).2)

/-- A listener that has no handler yet is bound and put in use in a place that is free. -/
theorem entered (h : Attended fickle d r) {n : NodeId} {id : ListenerId} {l : Listener}
    (hl : r.listener? id = some l) (hplace : l.node = n.key ∧ l.eventType = t ∧ l.revoked = false)
    (hfree : r.entries.get? (n.key, t) = none)
    (hunbound : ∀ n' x, x ∈ d.handlers n' → x.callback ≠ id)
    (hd : d'.handlers = Function.update d.handlers n
      (d.handlers n ++ [⟨t, d.lastBinding + 1, id⟩]))
    (hb : d'.lastBinding = d.lastBinding + 1) :
    Kept fickle r d' (r.enter n.key t ⟨id, n, d.lastBinding + 1⟩) := by
  have hmem {n' : NodeId} {x : Handler ListenerId} : x ∈ d'.handlers n' ↔
      x ∈ d.handlers n' ∨ n' = n ∧ x = ⟨t, d.lastBinding + 1, id⟩ := by
    rw [hd, Function.update_apply]
    split
    · rename_i hn
      rw [hn, List.mem_append, List.mem_singleton, and_iff_right rfl]
    · rename_i hn
      rw [or_iff_left fun h => hn h.1]
  have hcontinues : r.Continues (r.enter n.key t ⟨id, n, d.lastBinding + 1⟩) := by
    refine ⟨fun {id l} hl => ⟨l, hl, rfl, rfl⟩, fun _ => rfl, fun {key' t' id'} hid => .inl ?_⟩
    rw [find?_enter, if_neg, hid]
    intro hk
    obtain ⟨e', he', -⟩ := entry_of_find? hid
    rw [← hk, hfree] at he'
    cases he'
  -- the handlers of a node stay apart by what is new about the one that comes last
  have hnodup {γ : Type} (f : Handler ListenerId → γ) (hf : ∀ n, ((d.handlers n).map f).Nodup)
      (hnew : ∀ x ∈ d.handlers n, f x ≠ f ⟨t, d.lastBinding + 1, id⟩) (n' : NodeId) :
      ((d'.handlers n').map f).Nodup := by
    rw [hd, Function.update_apply]
    split
    · rw [List.map_append, List.nodup_append]
      refine ⟨hf n, List.nodup_singleton _, fun a ha b hb => ?_⟩
      obtain ⟨x, hx, rfl⟩ := List.mem_map.mp ha
      rw [List.map_singleton, List.mem_singleton] at hb
      subst hb
      exact hnew x hx
    · exact hf n'
  refine ⟨⟨fun {key' t' e'} he' => ?_, fun {key' t' e'} he' => ?_, ?_, ?_, fun {n' x} hx => ?_,
    fun {n' x} hx => ?_⟩, hcontinues⟩
  · rw [entries_enter] at he'
    split at he'
    · rename_i hk
      cases hk
      cases he'
      exact ⟨rfl, l, hl, hplace⟩
    · exact h.inUse he'
  · rw [entries_enter] at he'
    split at he'
    · rename_i hk
      cases hk
      cases he'
      exact hmem.mpr (.inr ⟨rfl, rfl⟩)
    · exact hmem.mpr (.inl (h.bound he'))
  · exact hnodup _ h.bindings fun x hx => Nat.ne_of_lt (Nat.lt_succ_of_le (h.spent hx))
  · exact hnodup _ h.callbacks fun x hx => hunbound n x hx
  · rw [hb]
    rcases hmem.mp hx with hold | ⟨-, rfl⟩
    · exact (h.spent hold).trans (Nat.le_succ _)
    · exact le_rfl
  · rcases hmem.mp hx with hold | ⟨rfl, rfl⟩
    · refine (h.owned hold).imp (fun hin => ?_) fun hf => ⟨hf.1, hcontinues.stays hf.2⟩
      rw [entries_enter, if_neg, hin]
      intro hk
      rw [← hk, hfree] at hin
      cases hin
    · exact .inl (by rw [entries_enter, if_pos rfl])

/-- The handles of a listener in use are replaced. -/
theorem modified (h : Attended fickle d r) {id : ListenerId} (hid : r.find? key t = some id)
    (handles : UInt32 × UInt32) :
    Kept fickle r d (r.modify id fun l => { l with handles }) := by
  obtain ⟨e, he, rfl⟩ := entry_of_find? hid
  have hcontinues : r.Continues (r.modify e.listener fun l => { l with handles }) := by
    refine ⟨fun {id l} hl => ?_, fun {id} hid => ?_, fun {key' t' id} hid => .inl hid⟩
    · rw [listener?_modify, hl]
      split
      · exact ⟨{ l with handles }, rfl, rfl, rfl⟩
      · exact ⟨l, rfl, rfl, rfl⟩
    · rw [listener?_modify, if_neg (h.listener_ne_of_retired he hid)]
  refine ⟨⟨fun {key' t' e'} he' => ?_, h.bound, h.bindings, h.callbacks, h.spent,
    fun {n x} hx => ?_⟩, hcontinues⟩
  · obtain ⟨hkey, l, hl, hplace⟩ := h.inUse he'
    refine ⟨hkey, ?_⟩
    rw [listener?_modify, hl]
    split
    · exact ⟨{ l with handles }, rfl, hplace⟩
    · exact ⟨l, rfl, hplace⟩
  · exact (h.owned hx).imp_right fun hf => ⟨hf.1, hcontinues.stays hf.2⟩

/-! ### The handles that come with an event -/

theorem handles?_release (h : Attended fickle d r) (he : r.entries.get? (key, t) = some e)
    (key' : NodeKey) (t' : String) :
    (r.release key t e).handles? key' t'
      = if (key, t) = (key', t') then none else r.handles? key' t' := by
  rw [handles?, find?_release]
  split
  · rfl
  · rename_i hk
    rw [handles?]
    cases hid : r.find? key' t' with
    | none => rfl
    | some id =>
      obtain ⟨e', he', rfl⟩ := entry_of_find? hid
      simp only [Option.bind_some]
      rw [listener?_release, if_neg fun hl => hk (h.same_place he he' hl)]

theorem handles?_make (h : Attended fickle d r) (l : Listener) (key' : NodeKey) (t' : String) :
    (r.make l).2.handles? key' t' = r.handles? key' t' := by
  have hfind : (r.make l).2.find? key' t' = r.find? key' t' := rfl
  rw [handles?, handles?, hfind]
  cases hid : r.find? key' t' with
  | none => rfl
  | some id =>
    obtain ⟨e', he', rfl⟩ := entry_of_find? hid
    obtain ⟨-, l', hl', -⟩ := h.inUse he'
    simp only [Option.bind_some]
    rw [hl', listener?_make_of_made hl']

theorem handles?_modified (h : Attended fickle d r) {id : ListenerId}
    (hid : r.find? key t = some id) (handles : UInt32 × UInt32) (key' : NodeKey) (t' : String) :
    (r.modify id fun l => { l with handles }).handles? key' t'
      = if (key, t) = (key', t') then some handles else r.handles? key' t' := by
  obtain ⟨e, he, rfl⟩ := entry_of_find? hid
  have hfind : (r.modify e.listener fun l => { l with handles }).find? key' t' = r.find? key' t' :=
    rfl
  rw [handles?, handles?, hfind]
  split
  · rename_i hk
    cases hk
    obtain ⟨-, l, hl, -⟩ := h.inUse he
    rw [hid, Option.bind_some, listener?_modify, if_pos rfl, hl]
    rfl
  · rename_i hk
    cases hid' : r.find? key' t' with
    | none => rfl
    | some id' =>
      obtain ⟨e', he', rfl⟩ := entry_of_find? hid'
      rw [Option.bind_some, listener?_modify, if_neg fun hl => hk (h.same_place he he' hl)]
      rfl

end Attended

theorem handles?_enter (r : Registry NodeId Nat τ) (key key' : NodeKey) (t t' : String)
    (e : Entry NodeId Nat) :
    (r.enter key t e).handles? key' t'
      = if (key, t) = (key', t') then (r.listener? e.listener).map (·.handles)
        else r.handles? key' t' := by
  rw [handles?, find?_enter]
  split <;> rfl

/-- Without an entry there are no handles. -/
theorem handles?_eq_none_iff (h : Attended fickle d r) :
    r.handles? key t = none ↔ r.entries.get? (key, t) = none := by
  rw [handles?]
  constructor
  · intro hnone
    by_contra he
    obtain ⟨e, he⟩ := Option.ne_none_iff_exists'.mp he
    obtain ⟨-, l, hl, -⟩ := h.inUse he
    rw [find?_of_entry he, Option.bind_some, hl] at hnone
    cases hnone
  · intro he
    rw [find?, he]
    rfl

end TreeEdit.Registry
