import TreeEdit.Proofs.Listener.Custody
import TreeEdit.Proofs.Machine.Leading

/-!
# Listeners that were handed out

A transcribed host keeps every call that was made to it together with its answer. A listener is
handed out when the document binds it. From then on it is in use until it is revoked, whatever the
document refuses in between (`Vouched`); so once no listener is in use, all that were ever handed
out are revoked.
-/

namespace TreeEdit

open Step (Chains Leads)

variable {δ ν β τ : Type}

/-! ## Transcripts -/

/-- A call together with the answer to it. -/
structure Exchange (ν β : Type) where
  kind : Reply
  call : HostCall ν β kind
  answer : Except HostError (kind.Of ν β)

/-- A document together with the calls that have been made to it and the answers. -/
structure Transcript (δ ν β : Type) where
  /-- The document. -/
  doc : δ
  /-- The exchanges, the latest first. -/
  exchanges : List (Exchange ν β)

/-- Keeps a transcript of what is said to a host. -/
def Host.transcribed (H : Host δ ν β) : Host (Transcript δ ν β) ν β where
  key t := H.key t.doc
  rootSeed t := H.rootSeed t.doc
  firstChild t := H.firstChild t.doc
  nextSibling t := H.nextSibling t.doc
  extent t := H.extent t.doc
  perform {k} call := fun t =>
    match H.perform call t.doc with
    | .ok a d => .ok a ⟨d, ⟨k, call, .ok a⟩ :: t.exchanges⟩
    | .error e d => .error e ⟨d, ⟨k, call, .error e⟩ :: t.exchanges⟩

namespace Transcript

variable {t t' : Transcript δ ν β} {id : ListenerId}

/-- The document has bound the listener, and so holds it. One whose binding is refused is given to
nobody. -/
def Bound (t : Transcript δ ν β) (id : ListenerId) : Prop :=
  ∃ node eventType binding, ⟨.binding, .listen node eventType id, .ok binding⟩ ∈ t.exchanges

/-- The transcript of `t` is the end of that of `t'`. -/
def Extends (t t' : Transcript δ ν β) : Prop :=
  t.exchanges <:+ t'.exchanges

theorem Bound.mono (h : t.Bound id) (ht : t.Extends t') : t'.Bound id := by
  obtain ⟨node, eventType, binding, hmem⟩ := h
  exact ⟨node, eventType, binding, ht.subset hmem⟩

/-- A call adds one exchange. -/
theorem perform_ends {H : Host δ ν β} {k : Reply} (call : HostCall ν β k) (t : Transcript δ ν β) :
    Step.Ends (H.transcribed.perform call) t
      (fun a t' => t'.exchanges = ⟨k, call, .ok a⟩ :: t.exchanges)
      fun e t' => t'.exchanges = ⟨k, call, .error e⟩ :: t.exchanges := by
  unfold Step.Ends Host.transcribed
  dsimp only
  cases H.perform call t.doc <;> rfl

end Transcript

/-! ## What is known of a scene -/

namespace Scene

open Transcript (Extends)

variable {H : Host δ ν β} {c c' : Scene (Transcript δ ν β) ν β τ}

/-- Every listener in use was made and bound, and every listener that was bound is in use or
revoked. -/
structure Vouched (c : Scene (Transcript δ ν β) ν β τ) : Prop where
  made : ∀ {place e}, c.listeners.entries.get? place = some e →
    ∃ l, c.listeners.listener? e.listener = some l
  bound : ∀ {place e}, c.listeners.entries.get? place = some e → c.doc.Bound e.listener
  kept : ∀ {id}, c.doc.Bound id →
    (∃ place e, c.listeners.entries.get? place = some e ∧ e.listener = id) ∨
      c.listeners.Revoked id

/-- What a step makes of a scene. -/
def StaysVouched (c c' : Scene (Transcript δ ν β) ν β τ) : Prop :=
  Vouched c → Vouched c' ∧ c.doc.Extends c'.doc

theorem chains_vouched : Chains (StaysVouched : Scene (Transcript δ ν β) ν β τ → _ → Prop) where
  refl _ h := ⟨h, List.suffix_refl _⟩
  trans h h' hs := ⟨(h' (h hs).1).1, (h hs).2.trans (h' (h hs).1).2⟩

/-- Nothing is released or bound. -/
theorem Vouched.aside (h : Vouched c) (hdoc : c.doc.Extends c'.doc)
    (hbound : ∀ id, c'.doc.Bound id → c.doc.Bound id)
    (hentries : c'.listeners.entries = c.listeners.entries)
    (hremembers : c.listeners.Remembers c'.listeners) : Vouched c' ∧ c.doc.Extends c'.doc := by
  refine ⟨⟨fun he => ?_, fun he => ?_, fun hid => ?_⟩, hdoc⟩
  · rw [hentries] at he
    exact hremembers.made (h.made he)
  · rw [hentries] at he
    exact (h.bound he).mono hdoc
  · rw [hentries]
    exact (h.kept (hbound _ hid)).imp id hremembers.revoked

theorem bound_cons {x : Exchange ν β} {d d' : Transcript δ ν β}
    (hx : ∀ node eventType id binding, x ≠ ⟨.binding, .listen node eventType id, .ok binding⟩)
    (hd : d'.exchanges = x :: d.exchanges) (id : ListenerId) (h : d'.Bound id) : d.Bound id := by
  obtain ⟨node, eventType, binding, hmem⟩ := h
  rw [hd] at hmem
  rcases List.mem_cons.mp hmem with heq | hmem
  · exact absurd heq.symm (hx node eventType id binding)
  · exact ⟨node, eventType, binding, hmem⟩

theorem extends_cons {x : Exchange ν β} {d d' : Transcript δ ν β}
    (hd : d'.exchanges = x :: d.exchanges) : d.Extends d' := by
  rw [Extends, hd]
  exact List.suffix_cons _ _

/-- Of the calls, only those that bind a listener make a difference. -/
theorem call_vouched {k : Reply} {call : HostCall ν β k} (hcall : call.Mute) :
    Leads StaysVouched (Scene.call H.transcribed call : Act (Transcript δ ν β) ν β τ _) := by
  intro c
  rw [ends_call]
  have hx (answer : Except HostError (k.Of ν β)) (node eventType id) (binding : β) :
      (⟨k, call, answer⟩ : Exchange ν β) ≠ ⟨.binding, .listen node eventType id, .ok binding⟩ := by
    rintro heq
    cases heq
    exact hcall
  refine (Transcript.perform_ends call c.doc).mono (fun a d hd h => ?_) fun e d hd h => ?_
  · exact h.aside (extends_cons hd) (bound_cons (hx _) hd) rfl
      (Registry.remembers_of_listeners rfl)
  · exact h.aside (extends_cons hd) (bound_cons (hx _) hd) rfl
      (Registry.remembers_of_listeners rfl)

theorem release_vouched {key : NodeKey} {t : String} {entry : Registry.Entry ν β}
    (h : Vouched c) (he : c.listeners.entries.get? (key, t) = some entry) :
    Step.Ends (release H.transcribed key t entry) c
      (fun _ c' => Vouched c' ∧ c.doc.Extends c'.doc)
      fun _ c' => Vouched c' ∧ c.doc.Extends c'.doc := by
  obtain ⟨l, hl⟩ := h.made he
  have hremembers := c.listeners.remembers_release key t entry
  have released (answer : Except HostError Unit) (d : Transcript δ ν β)
      (hd : d.exchanges =
        ⟨.done, .unlisten entry.node t entry.binding, answer⟩ :: c.doc.exchanges) :
      Vouched { c with doc := d, listeners := c.listeners.release key t entry } ∧
        c.doc.Extends d := by
    have hext := extends_cons hd
    refine ⟨⟨fun {place e} hplace => ?_, fun {place e} hplace => ?_, fun {id} hid => ?_⟩, hext⟩
    · rw [Registry.entries_release] at hplace
      split at hplace
      · cases hplace
      · exact hremembers.made (h.made hplace)
    · rw [Registry.entries_release] at hplace
      split at hplace
      · cases hplace
      · exact (h.bound hplace).mono hext
    · rcases h.kept (bound_cons (fun _ _ _ _ heq => by cases heq) hd id hid) with ⟨place, e, hplace, rfl⟩ | hid
      · by_cases hsame : (key, t) = place
        · subst hsame
          cases hplace.symm.trans he
          exact .inr (Registry.revoked_release hl key t)
        · refine .inl ⟨place, e, ?_, rfl⟩
          rw [Registry.entries_release, if_neg hsame]
          exact hplace
      · exact .inr (hremembers.revoked hid)
  rw [release, Step.ends_bind, ends_modifyListeners, ends_call]
  exact (Transcript.perform_ends _ c.doc).mono (fun a d hd => released _ d hd)
    fun e d hd => released _ d hd

theorem enlist_vouched {key : NodeKey} {t : String} (h : Vouched c)
    (hfree : c.listeners.entries.get? (key, t) = none) (node : ν) (handles : UInt32 × UInt32) :
    Step.Ends (enlist H.transcribed key node t handles c.listeners) c
      (fun _ c' => Vouched c' ∧ c.doc.Extends c'.doc)
      fun _ c' => Vouched c' ∧ c.doc.Extends c'.doc := by
  have hmade : (c.listeners.make (.fresh t key handles)).2.listener?
      (c.listeners.make (.fresh t key handles)).1 = some (.fresh t key handles) := by
    rw [Registry.listener?_make, if_pos rfl]
  have hremembers := c.listeners.remembers_make (.fresh t key handles)
  rw [enlist, Step.ends_bind, ends_modifyListeners, Step.ends_bind, ends_call]
  refine (Transcript.perform_ends _ c.doc).mono (fun binding d hd => ?_) fun e d hd => ?_
  · rw [ends_modifyListeners]
    have hext := extends_cons hd
    refine ⟨⟨fun {place e} hplace => ?_, fun {place e} hplace => ?_, fun {id} hid => ?_⟩, hext⟩
    · rw [Registry.entries_enter] at hplace
      split at hplace
      · cases hplace
        exact ⟨_, hmade⟩
      · exact hremembers.made (h.made hplace)
    · rw [Registry.entries_enter] at hplace
      split at hplace
      · cases hplace
        exact ⟨node, t, binding, hd ▸ List.mem_cons_self⟩
      · exact (h.bound hplace).mono hext
    · obtain ⟨node', t', binding', hmem⟩ := hid
      rw [hd] at hmem
      rcases List.mem_cons.mp hmem with heq | hmem
      · cases heq
        refine .inl ⟨(key, t), ⟨_, node, binding⟩, ?_, rfl⟩
        rw [Registry.entries_enter, if_pos rfl]
      · refine (h.kept ⟨node', t', binding', hmem⟩).imp ?_ hremembers.revoked
        rintro ⟨place, e, hplace, he⟩
        refine ⟨place, e, ?_, he⟩
        rw [Registry.entries_enter, if_neg]
        · exact hplace
        · rintro rfl
          cases hfree.symm.trans hplace
  · refine h.aside (extends_cons hd) (bound_cons (fun _ _ _ _ heq => by cases heq) hd) rfl hremembers

theorem custody_vouched : Custody (τ := τ) H.transcribed StaysVouched where
  chains := chains_vouched
  aside hdoc hentries hremembers h := by
    refine h.aside ?_ ?_ hentries hremembers
    · rw [hdoc]
      exact List.suffix_refl _
    · rw [hdoc]
      exact fun _ => id
  release he := Step.Ends.of_imp fun h => release_vouched h he
  enlist hfree node handles := Step.Ends.of_imp fun h => enlist_vouched h hfree node handles

end Scene

end TreeEdit
