import TreeEdit.Proofs.Listener.Custody
import TreeEdit.Proofs.Listener.Handling

/-!
# Handlers that are left behind

The binding that takes a handler off is known to the entry of its listener only, and the entry is
given up before the document is asked. So a handler whose removal is refused is left behind. That
is the only way: every handler of a session is accounted for by an entry, or by a removal that was
refused, and then its listener is revoked (`Accounted`). All steps of a registry keep the account,
wherever they are broken off (`accounted_of_serves`), and taking all listeners off leaves no
entries (`teardown_accounts`).
-/

namespace TreeEdit

variable {δ ν β η τ : Type}

namespace Scene

variable {V : HandlerView δ ν β η} {H : Host δ ν β} {refuse : Nat → Option HostError}
  {c c' c'' : Scene (Watched δ ν β) ν β τ}

/-! ## The account -/

/-- An entry knows the handler of a listener. -/
def Entered (V : HandlerView δ ν β η) (r : Registry ν β τ) (n : ν) (x : η) (id : ListenerId) :
    Prop :=
  ∃ place e, r.entries.get? place = some e ∧ e.listener = id ∧ e.node = n ∧
    e.binding = V.binding x

/-- Every handler of the session is known to an entry, or belongs to a revoked listener and to a
removal that was refused. -/
structure Accounted (V : HandlerView δ ν β η) (refuse : Nat → Option HostError)
    (c : Scene (Watched δ ν β) ν β τ) : Prop where
  made : ∀ {place e}, c.listeners.entries.get? place = some e →
    ∃ l, c.listeners.listener? e.listener = some l
  handlers : ∀ {n x id}, V.Holds c.doc.doc n x id →
    Entered V c.listeners n x id ∨
      c.listeners.Revoked id ∧ c.doc.Refused refuse n (V.binding x)

/-- What a step has made of a scene whose handlers were accounted for. -/
structure StaysAccounted (V : HandlerView δ ν β η) (refuse : Nat → Option HostError)
    (c c' : Scene (Watched δ ν β) ν β τ) : Prop where
  accounted : Accounted V refuse c'
  calls : c.doc.GoesOn c'.doc

theorem StaysAccounted.trans (h : StaysAccounted V refuse c c')
    (h' : StaysAccounted V refuse c' c'') : StaysAccounted V refuse c c'' :=
  ⟨h'.accounted, h.calls.trans h'.calls⟩

namespace Accounted

/-- Handlers may go, and others than those of the session may come. -/
theorem elsewhere (h : Accounted V refuse c) (hentries : c'.listeners.entries = c.listeners.entries)
    (hremembers : c.listeners.Remembers c'.listeners) (hcalls : c.doc.GoesOn c'.doc)
    (hcame : V.NoneCame c.doc.doc c'.doc.doc) : StaysAccounted V refuse c c' where
  calls := hcalls
  accounted := {
    made := by
      intro place e he
      rw [hentries] at he
      exact hremembers.made (h.made he)
    handlers := by
      intro n x id hx
      refine (h.handlers (hcame n x id hx)).imp (fun hentered => ?_) fun hleft => ?_
      · rwa [Entered, hentries]
      · exact ⟨hremembers.revoked hleft.1, hleft.2.mono hcalls⟩ }

theorem refl (h : Accounted V refuse c) : StaysAccounted V refuse c c :=
  h.elsewhere rfl (Registry.remembers_of_listeners rfl) c.doc.goesOn_refl
    (HandlerView.noneCame_refl _)

theorem of_listeners (h : Accounted V refuse c) (hdoc : c'.doc = c.doc)
    (hentries : c'.listeners.entries = c.listeners.entries)
    (hremembers : c.listeners.Remembers c'.listeners) : StaysAccounted V refuse c c' := by
  refine h.elsewhere hentries hremembers ?_ ?_
  · rw [hdoc]
    exact c.doc.goesOn_refl
  · rw [hdoc]
    exact HandlerView.noneCame_refl _

end Accounted

/-! ## Taking off -/

variable {key : NodeKey} {t : String} {entry : Registry.Entry ν β}

/-- Whether the document agrees or not, the entry is gone and the rest is accounted for. -/
theorem release_accounts (hV : V.Faithful H) (h : Accounted V refuse c)
    (he : c.listeners.entries.get? (key, t) = some entry) :
    Step.Ends (release (H.watched refuse) key t entry) c
      (fun _ c' => StaysAccounted V refuse c c') fun _ c' => StaysAccounted V refuse c c' := by
  obtain ⟨l, hl⟩ := h.made he
  have hremembers := c.listeners.remembers_release key t entry
  have released (w : Watched δ ν β) (hcalls : c.doc.GoesOn w) (hcame : V.NoneCame c.doc.doc w.doc)
      (hgone : ∀ x id, V.Holds w.doc entry.node x id → V.binding x = entry.binding →
        w.Refused refuse entry.node entry.binding) :
      StaysAccounted V refuse c
        { c with doc := w, listeners := c.listeners.release key t entry } := by
    refine ⟨⟨?_, ?_⟩, hcalls⟩
    · intro place e hplace
      rw [Registry.entries_release] at hplace
      split at hplace
      · cases hplace
      · exact hremembers.made (h.made hplace)
    · intro n x id hx
      rcases h.handlers (hcame n x id hx) with ⟨place, e, hplace, rfl, rfl, hb⟩ | ⟨hid, hrefused⟩
      · by_cases hsame : (key, t) = place
        · subst hsame
          cases hplace.symm.trans he
          refine .inr ⟨Registry.revoked_release hl key t, ?_⟩
          rw [← hb]
          exact hgone x _ hx hb.symm
        · refine .inl ⟨place, e, ?_, rfl, rfl, hb⟩
          rw [Registry.entries_release, if_neg hsame]
          exact hplace
      · exact .inr ⟨hremembers.revoked hid, hrefused.mono hcalls⟩
  rw [release, Step.ends_bind, ends_modifyListeners, ends_call]
  exact (hV.watched_unlisten refuse entry.node t entry.binding c.doc).mono
    (fun _ w hw => released w hw.1 hw.2.1 hw.2.2) fun _ w hw => released w hw.1 hw.2.1 hw.2.2

/-! ## Attaching -/

/-- A listener is made, and bound where none is entered. If the document refuses, that is all. -/
theorem enlist_accounts (hV : V.Faithful H) (h : Accounted V refuse c) (n : ν)
    (handles : UInt32 × UInt32) (hfree : c.listeners.entries.get? (key, t) = none) :
    Step.Ends (enlist (H.watched refuse) key n t handles c.listeners) c
      (fun _ c' => StaysAccounted V refuse c c') fun _ c' => StaysAccounted V refuse c c' := by
  have hmade : (c.listeners.make (.fresh t key handles)).2.listener?
      (c.listeners.make (.fresh t key handles)).1 = some (.fresh t key handles) := by
    rw [Registry.listener?_make, if_pos rfl]
  have hremembers := c.listeners.remembers_make (.fresh t key handles)
  rw [enlist, Step.ends_bind, ends_modifyListeners, Step.ends_bind, ends_call]
  refine (hV.watched_listen refuse c.doc n t _).mono (fun binding w hw => ?_) fun _ w hw => ?_
  · obtain ⟨hcalls, hcame⟩ := hw
    rw [ends_modifyListeners]
    refine ⟨⟨?_, ?_⟩, hcalls⟩
    · intro place e hplace
      rw [Registry.entries_enter] at hplace
      split at hplace
      · cases hplace
        exact ⟨_, hmade⟩
      · exact hremembers.made (h.made hplace)
    · intro n' x id hx
      rcases hcame n' x id hx with hold | ⟨rfl, rfl, rfl⟩
      · refine (h.handlers hold).imp (fun hentered => ?_) fun hleft => ?_
        · obtain ⟨place, e, hplace, hrest⟩ := hentered
          refine ⟨place, e, ?_, hrest⟩
          rw [Registry.entries_enter, if_neg]
          · exact hplace
          · rintro rfl
            cases hfree.symm.trans hplace
        · exact ⟨hremembers.revoked hleft.1, hleft.2.mono hcalls⟩
      · refine .inl ⟨(key, t), ⟨_, n', V.binding x⟩, ?_, rfl, rfl, rfl⟩
        rw [Registry.entries_enter, if_pos rfl]
  · exact h.elsewhere rfl hremembers hw.1 hw.2

/-- All steps of a registry keep the account. -/
theorem custody_accounted (hV : V.Faithful H) (refuse : Nat → Option HostError) :
    Custody (τ := τ) (H.watched refuse)
      fun c c' => Accounted V refuse c → StaysAccounted V refuse c c' where
  chains := ⟨fun _ h => h.refl, fun h h' hs => (h hs).trans (h' (h hs).accounted)⟩
  aside hdoc hentries hremembers h := h.of_listeners hdoc hentries hremembers
  release he := Step.Ends.of_imp fun h => release_accounts hV h he
  enlist hfree n handles := Step.Ends.of_imp fun h => enlist_accounts hV h n handles hfree

theorem teardown_accounts (hV : V.Faithful H) (h : Accounted V refuse c) :
    Step.Ends (teardown (H.watched refuse)) c
      (fun _ c' => StaysAccounted V refuse c c' ∧ ∀ place, c'.listeners.entries.get? place = none)
      fun _ c' => StaysAccounted V refuse c c' ∧
        ∀ place, c'.listeners.entries.get? place = none :=
  (((custody_accounted hV refuse).teardown c).and (teardown_clears c)).mono
    (fun _ _ h' => ⟨h'.1 h, h'.2.1⟩) fun _ _ h' => ⟨h'.1 h, h'.2.1⟩

/-! ## Runs of a registry -/

/-- The scene after one step of a registry on a host whose watch refuses what `refuse` says, or
after something else has happened to the document or the journal. -/
inductive Serves (V : HandlerView δ ν β η) (H : Host δ ν β) (refuse : Nat → Option HostError)
    (c : Scene (Watched δ ν β) ν β τ) : Scene (Watched δ ν β) ν β τ → Prop
  | attach (n : ν) (eventType : String) (handles : UInt32 × UInt32) :
      Serves V H refuse c (Step.after (attach (H.watched refuse) n eventType handles) c)
  | update (key : NodeKey) (eventType : String) (handles : UInt32 × UInt32) :
      Serves V H refuse c (Step.after (update key eventType handles) c)
  | detach (n : ν) (eventType : String) :
      Serves V H refuse c (Step.after (detach (H.watched refuse) n eventType) c)
  | teardown : Serves V H refuse c (Step.after (teardown (H.watched refuse)) c)
  | install (trampoline : τ) :
      Serves V H refuse c { c with listeners := c.listeners.install trampoline }
  | uninstall : Serves V H refuse c { c with listeners := c.listeners.uninstall }
  /-- Anything that installs no handler of the session. The watch may have seen calls. -/
  | edit (w : Watched δ ν β) (hcalls : c.doc.GoesOn w) (hcame : V.NoneCame c.doc.doc w.doc) :
      Serves V H refuse c { c with doc := w }
  | note (notice : Notice) : Serves V H refuse c { c with journal := c.journal.push notice }

/-- Any number of such steps. -/
def Served (V : HandlerView δ ν β η) (H : Host δ ν β) (refuse : Nat → Option HostError)
    (c c' : Scene (Watched δ ν β) ν β τ) : Prop :=
  Relation.ReflTransGen (Serves V H refuse) c c'

theorem accounted_of_serves (hV : V.Faithful H) (h : Accounted V refuse c)
    (hc : Serves V H refuse c c') : StaysAccounted V refuse c c' := by
  have hcustody := custody_accounted (τ := τ) hV refuse
  cases hc with
  | attach n t handles => exact Step.leads_iff.mp (hcustody.attach n t handles) c h
  | update key t handles => exact Step.leads_iff.mp (hcustody.update key t handles) c h
  | detach n t => exact Step.leads_iff.mp (hcustody.detach n t) c h
  | teardown => exact Step.leads_iff.mp hcustody.teardown c h
  | install trampoline => exact hcustody.install c trampoline h
  | uninstall => exact hcustody.uninstall c h
  | edit w hcalls hcame =>
    exact h.elsewhere rfl (Registry.remembers_of_listeners rfl) hcalls hcame
  | note notice => exact hcustody.note c notice h

theorem accounted_of_served (hV : V.Faithful H) (h : Accounted V refuse c)
    (hc : Served V H refuse c c') : StaysAccounted V refuse c c' := by
  induction hc with
  | refl => exact h.refl
  | tail _ hlast ih => exact ih.trans (accounted_of_serves hV ih.accounted hlast)

/-- The account is empty where no handler is one of the session. -/
theorem accounted_ofDoc {w : Watched δ ν β} (hw : ∀ n x id, ¬ V.Holds w.doc n x id) :
    Accounted V refuse (ofDoc w : Scene (Watched δ ν β) ν β τ) where
  made he := by cases he
  handlers {n x id} hx := absurd hx (hw n x id)

/-! ## What is left -/

/-- The handlers of the session that are there in the end belong to revoked listeners and to
removals that were refused at the start or before. If there are none of these, no handler of the
session is left. -/
structure LeavesRefused (V : HandlerView δ ν β η) (refuse : Nat → Option HostError)
    (c c' : Scene (Watched δ ν β) ν β τ) : Prop where
  refused : ∀ n x id, V.Holds c'.doc.doc n x id →
    c'.listeners.Revoked id ∧ c.doc.Refused refuse n (V.binding x)
  nothing : (∀ n binding, ¬ c.doc.Refused refuse n binding) →
    ∀ n x id, ¬ V.Holds c'.doc.doc n x id

/-- Without entries, all that is accounted for is what was refused. -/
theorem StaysAccounted.leavesRefused (h : StaysAccounted V refuse c c')
    (hentries : ∀ place, c'.listeners.entries.get? place = none)
    (hlet : Watched.LetThrough refuse c.doc c'.doc) : LeavesRefused V refuse c c' := by
  have hrefused (n : ν) (x : η) (id : ListenerId) (hx : V.Holds c'.doc.doc n x id) :
      c'.listeners.Revoked id ∧ c.doc.Refused refuse n (V.binding x) := by
    rcases h.accounted.handlers hx with ⟨place, e, hplace, -⟩ | ⟨hid, hx⟩
    · cases (hentries place).symm.trans hplace
    · exact ⟨hid, hx.of_letThrough h.calls hlet⟩
  exact ⟨hrefused, fun hnone n x id hx => hnone n _ (hrefused n x id hx).2⟩

end Scene

end TreeEdit
