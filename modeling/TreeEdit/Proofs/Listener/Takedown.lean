import Mathlib.Data.List.Dedup
import TreeEdit.Host.Watched
import TreeEdit.Proofs.Listener.Transcript

/-!
# Taking all listeners off

What a teardown asks of the document, and in which order. The entries of a registry stand in the
order in which their places were last attached: attaching a place again moves it to the end, taking
a listener off leaves the others where they are, and new handles move nothing (`Logged.order`). A
teardown hands back the binding of every entry in that order, one call for each, whatever the
document answers, and fails with the first refusal (`teardown_of_logged`).
-/

namespace TreeEdit

open Step (Ends Leads)

variable {δ ν β τ : Type}

/-- The last of several occurrences counts. -/
theorem dedup_concat {α : Type} [DecidableEq α] (l : List α) (a : α) :
    (l ++ [a]).dedup = l.dedup.filter (· ≠ a) ++ [a] := by
  induction l with
  | nil => rfl
  | cons b l ih =>
    rw [List.cons_append]
    by_cases hl : b ∈ l
    · rw [List.dedup_cons_of_mem (List.mem_append_left _ hl), List.dedup_cons_of_mem hl, ih]
    · rw [List.dedup_cons_of_notMem hl]
      by_cases ha : b = a
      · rw [List.dedup_cons_of_mem (List.mem_append_right _ (List.mem_singleton.mpr ha)), ih,
          List.filter_cons_of_neg (by simpa using ha)]
      · rw [List.dedup_cons_of_notMem (by simp [hl, ha]), ih,
          List.filter_cons_of_pos (by simpa using ha), List.cons_append]

namespace Scene

/-! ## The order of the entries -/

section Places

variable {H : Host δ ν β} {c : Scene δ ν β τ}

/-- The places of the listeners in use, in the order of their entries. -/
def places (c : Scene δ ν β τ) : List (NodeKey × String) :=
  c.listeners.entries.keys

theorem places_release (key : NodeKey) (t : String) (entry : Registry.Entry ν β)
    (c : Scene δ ν β τ) :
    Ends (release H key t entry) c (fun _ c' => c'.places = c.places.filter (· ≠ (key, t)))
      fun _ c' => c'.places = c.places.filter (· ≠ (key, t)) := by
  have hkeys (c' : Scene δ ν β τ) (h : c'.listeners = c.listeners.release key t entry) :
      c'.places = c.places.filter (· ≠ (key, t)) := by
    rw [places, h]
    exact OrderedMap.keys_erase _ _
  exact (release_listeners key t entry c).mono (fun _ => hkeys) fun _ => hkeys

/-- A place that is free is not among the places in use. -/
theorem notMem_places {place : NodeKey × String} (h : c.listeners.entries.get? place = none) :
    place ∉ c.places := by
  intro hmem
  obtain ⟨p, hp, rfl⟩ := List.mem_map.mp hmem
  cases h.symm.trans (OrderedMap.get?_eq_some_iff.mpr hp)

/-- Attaching a place moves it to the end. If it is refused, some place may have been given up. -/
theorem places_attach (n : ν) (t : String) (handles : UInt32 × UInt32) (c : Scene δ ν β τ) :
    Ends (attach H n t handles) c
      (fun _ c' => c'.places
        = c.places.filter (· ≠ (H.key c.doc n, t)) ++ [(H.key c.doc n, t)])
      fun _ c' => c'.places.Sublist c.places := by
  have hgiven : Ends (giveWay H (H.key c.doc n) t
      (c.listeners.entries.get? (H.key c.doc n, t))) c
      (fun _ c₁ => c₁.places = c.places.filter (· ≠ (H.key c.doc n, t)))
      fun _ c₁ => c₁.places = c.places.filter (· ≠ (H.key c.doc n, t)) := by
    cases he : c.listeners.entries.get? (H.key c.doc n, t) with
    | none =>
      refine (List.filter_eq_self.mpr fun place hplace => ?_).symm
      rw [decide_eq_true_iff]
      rintro rfl
      exact notMem_places he hplace
    | some entry =>
      rw [giveWay, Step.ends_bind, ends_note]
      exact places_release _ t entry _
  rw [attach_eq, Step.ends_bind, Step.ends_get, Step.ends_bind]
  refine hgiven.mono (fun _ c₁ h₁ => ?_) fun _ c₁ h₁ => h₁ ▸ List.filter_sublist
  rw [Step.ends_bind, Step.ends_get, enlist, Step.ends_bind, ends_modifyListeners, Step.ends_bind,
    ends_call]
  refine Step.ends_iff.mpr ⟨fun binding d _ => ?_, fun e d _ => ?_⟩
  · rw [ends_modifyListeners, ← h₁]
    refine (OrderedMap.keys_put _ _ _).trans (if_neg ?_)
    show (H.key c.doc n, t) ∉ c₁.places
    rw [h₁]
    simp
  · show c₁.places.Sublist c.places
    rw [h₁]
    exact List.filter_sublist

theorem places_update (key : NodeKey) (t : String) (handles : UInt32 × UInt32)
    (c : Scene δ ν β τ) :
    Ends (update key t handles) c (fun _ c' => c'.places = c.places)
      fun _ c' => c'.places = c.places := by
  rw [update, Step.ends_bind, Step.ends_get, Step.ends_bind, Step.ends_ofExcept, Registry.update]
  split
  · refine ⟨fun r hr => ?_, fun e he => ?_⟩
    · cases hr
      rfl
    · cases he
  · refine ⟨fun r hr => ?_, fun _ _ => rfl⟩
    cases hr

theorem places_detach (n : ν) (t : String) (c : Scene δ ν β τ) :
    Ends (detach H n t) c (fun _ c' => c'.places.Sublist c.places)
      fun _ c' => c'.places.Sublist c.places := by
  rw [detach_eq, Step.ends_bind, Step.ends_get]
  cases c.listeners.entries.get? (H.key c.doc n, t) with
  | none => exact List.Sublist.refl _
  | some entry =>
    exact (places_release _ t entry c).mono (fun _ _ h' => h' ▸ List.filter_sublist)
      fun _ _ h' => h' ▸ List.filter_sublist

theorem places_teardown (c : Scene δ ν β τ) :
    Ends (teardown H) c (fun _ c' => c'.places = []) fun _ c' => c'.places = [] := by
  have hnone (c' : Scene δ ν β τ) (h : ∀ place, c'.listeners.entries.get? place = none) :
      c'.places = [] := by
    rw [List.eq_nil_iff_forall_not_mem]
    exact fun place => notMem_places (h place)
  exact (teardown_clears c).mono (fun _ c' h' => hnone c' h'.1) fun _ c' h' => hnone c' h'.1

end Places

/-! ## Runs of a registry -/

section Runs

variable {H : Host δ ν β} {c c' : Scene (Transcript δ ν β) ν β τ}
  {place : Option (NodeKey × String)} {log : List (NodeKey × String)}

/-- One step of a registry on the host `H`, or a change of the document by others, leads from `c` to
`c'`. If a listener was attached, `place` says where. -/
inductive Logs (H : Host δ ν β) (c : Scene (Transcript δ ν β) ν β τ) :
    Option (NodeKey × String) → Scene (Transcript δ ν β) ν β τ → Prop
  | attached (n : ν) (eventType : String) (handles : UInt32 × UInt32)
      {c' : Scene (Transcript δ ν β) ν β τ}
      (hc : attach H.transcribed n eventType handles c = .ok () c') :
      Logs H c (some (H.key c.doc.doc n, eventType)) c'
  | unattached (n : ν) (eventType : String) (handles : UInt32 × UInt32) {e : Error}
      {c' : Scene (Transcript δ ν β) ν β τ}
      (hc : attach H.transcribed n eventType handles c = .error e c') : Logs H c none c'
  | update (key : NodeKey) (eventType : String) (handles : UInt32 × UInt32) :
      Logs H c none (Step.after (update key eventType handles) c)
  | detach (n : ν) (eventType : String) :
      Logs H c none (Step.after (detach H.transcribed n eventType) c)
  | teardown : Logs H c none (Step.after (teardown H.transcribed) c)
  | install (trampoline : τ) : Logs H c none { c with listeners := c.listeners.install trampoline }
  | uninstall : Logs H c none { c with listeners := c.listeners.uninstall }
  | elsewhere (d : δ) : Logs H c none { c with doc := { c.doc with doc := d } }

/-- Such steps have led to a scene from one without listeners, in whatever order and whatever was
refused. The log has the places where listeners were attached, the earliest first. -/
inductive Logged (H : Host δ ν β) :
    List (NodeKey × String) → Scene (Transcript δ ν β) ν β τ → Prop
  | start (d : δ) : Logged H [] (.ofDoc ⟨d, []⟩)
  | step {log : List (NodeKey × String)} {c c' : Scene (Transcript δ ν β) ν β τ}
      {place : Option (NodeKey × String)} (h : Logged H log c) (hc : Logs H c place c') :
      Logged H (log ++ place.toList) c'

/-- An attached place goes to the end, and no other place goes anywhere but away. -/
theorem Logs.places (h : Logs H c place c') :
    (∃ p, place = some p ∧ c'.places = c.places.filter (· ≠ p) ++ [p]) ∨
      (place = none ∧ c'.places.Sublist c.places) := by
  cases h with
  | attached n t handles hc =>
    exact .inl ⟨_, rfl, (Step.ends_iff.mp (places_attach n t handles c)).1 () c' hc⟩
  | unattached n t handles hc =>
    exact .inr ⟨rfl, (Step.ends_iff.mp (places_attach n t handles c)).2 _ c' hc⟩
  | update key t handles =>
    have hplaces : (Step.after (Scene.update key t handles) c).places = c.places :=
      (places_update key t handles c).after
    exact .inr ⟨rfl, hplaces ▸ List.Sublist.refl _⟩
  | detach n t =>
    have hplaces : (Step.after (Scene.detach H.transcribed n t) c).places.Sublist c.places :=
      (places_detach n t c).after
    exact .inr ⟨rfl, hplaces⟩
  | teardown =>
    have hplaces : (Step.after (Scene.teardown H.transcribed) c).places = [] :=
      (places_teardown c).after
    exact .inr ⟨rfl, hplaces ▸ List.nil_sublist _⟩
  | install | uninstall | elsewhere => exact .inr ⟨rfl, List.Sublist.refl _⟩

/-- The entries stand in the order in which their places were last attached. -/
theorem Logged.order (h : Logged H log c) : c.places.Sublist log.dedup := by
  induction h with
  | start d => exact List.Sublist.refl []
  | step _ hc ih =>
    rcases hc.places with ⟨p, rfl, hplaces⟩ | ⟨rfl, hplaces⟩
    · rw [Option.toList_some, dedup_concat, hplaces]
      exact (ih.filter _).append_right _
    · rw [Option.toList_none, List.append_nil]
      exact hplaces.trans ih

/-- What leads along all steps of a registry, and along changes by others, leads along a run. -/
theorem Logs.leads {S : Scene (Transcript δ ν β) ν β τ → Scene (Transcript δ ν β) ν β τ → Prop}
    (hS : Custody H.transcribed S)
    (helsewhere : ∀ c d, S c { c with doc := { c.doc with doc := d } }) (h : Logs H c place c') :
    S c c' := by
  cases h with
  | attached n t handles hc => exact (Step.ends_iff.mp (hS.attach n t handles c)).1 () c' hc
  | unattached n t handles hc => exact (Step.ends_iff.mp (hS.attach n t handles c)).2 _ c' hc
  | update key t handles => exact Step.leads_iff.mp (hS.update key t handles) c
  | detach n t => exact Step.leads_iff.mp (hS.detach n t) c
  | teardown => exact Step.leads_iff.mp hS.teardown c
  | install trampoline => exact hS.install c trampoline
  | uninstall => exact hS.uninstall c
  | elsewhere d => exact helsewhere c d

theorem Logged.vouched (h : Logged H log c) : Vouched c := by
  induction h with
  | start d =>
    refine ⟨nofun, nofun, fun hid => ?_⟩
    obtain ⟨_, _, _, hmem⟩ := hid
    cases hmem
  | step _ hc ih =>
    refine (hc.leads custody_vouched (fun c d hv => ?_) ih).1
    exact hv.aside (List.suffix_refl _) (fun _ => id) rfl (Registry.remembers_of_listeners rfl)

/-! ### Bindings -/

/-- The binding of every entry is the one that the document gave for its listener. -/
def Granted (c : Scene (Transcript δ ν β) ν β τ) : Prop :=
  ∀ key t e, c.listeners.entries.get? (key, t) = some e →
    ⟨.binding, .listen e.node t e.listener, .ok e.binding⟩ ∈ c.doc.exchanges

/-- Entries may go, and exchanges may come. -/
theorem Granted.mono (h : Granted c) (hdoc : c.doc.Extends c'.doc)
    (hentries : ∀ place e, c'.listeners.entries.get? place = some e →
      c.listeners.entries.get? place = some e) : Granted c' :=
  fun key t e he => hdoc.subset (h key t e (hentries _ e he))

theorem release_granted (key : NodeKey) (t : String) (entry : Registry.Entry ν β)
    (h : Granted c) :
    Ends (release H.transcribed key t entry) c (fun _ c' => Granted c') fun _ c' => Granted c' := by
  have hentries (place e) (he : (c.listeners.release key t entry).entries.get? place = some e) :
      c.listeners.entries.get? place = some e := by
    rw [Registry.entries_release] at he
    split at he
    · cases he
    · exact he
  rw [release, Step.ends_bind, ends_modifyListeners, ends_call]
  exact (Transcript.perform_ends _ c.doc).mono
    (fun _ _ hd => h.mono (extends_cons hd) hentries)
    fun _ _ hd => h.mono (extends_cons hd) hentries

theorem enlist_granted (key : NodeKey) (t : String) (n : ν) (handles : UInt32 × UInt32)
    (h : Granted c) :
    Ends (enlist H.transcribed key n t handles c.listeners) c (fun _ c' => Granted c')
      fun _ c' => Granted c' := by
  rw [enlist, Step.ends_bind, ends_modifyListeners, Step.ends_bind, ends_call]
  refine (Transcript.perform_ends _ c.doc).mono (fun binding d hd => ?_) fun _ d hd => ?_
  · rw [ends_modifyListeners]
    intro key' t' e he
    rw [Registry.entries_enter] at he
    split at he
    · rename_i hplace
      cases hplace
      cases he
      exact hd ▸ List.mem_cons_self
    · exact (extends_cons hd).subset (h key' t' e he)
  · exact h.mono (extends_cons hd) fun _ _ => id

theorem custody_granted : Custody (τ := τ) H.transcribed fun c c' => Granted c → Granted c' where
  chains := ⟨fun _ => id, fun h h' => h' ∘ h⟩
  aside hdoc hentries _ h key t e he := by
    rw [hdoc]
    exact h key t e (hentries ▸ he)
  release _ := Ends.of_imp (release_granted _ _ _)
  enlist _ node handles := Ends.of_imp (enlist_granted _ _ node handles)

theorem Logged.granted (h : Logged H log c) : Granted c := by
  induction h with
  | start d => exact nofun
  | step _ hc ih => exact hc.leads custody_granted (fun _ _ => id) ih

/-! ## What a teardown says to the document -/

/-- The calls that hand back the bindings of some entries, one for each, with the answers. -/
def farewells (entries : List ((NodeKey × String) × Registry.Entry ν β))
    (answers : List (Except HostError Unit)) : List (Exchange ν β) :=
  entries.zipWith (fun p answer => ⟨.done, .unlisten p.2.node p.1.2 p.2.binding, answer⟩) answers

/-- The first refusal among some answers, as an error. -/
def firstRefusal : List (Except HostError Unit) → Option Error
  | [] => none
  | .error e :: _ => some (.host e)
  | .ok () :: answers => firstRefusal answers

theorem release_exchanges (key : NodeKey) (t : String) (entry : Registry.Entry ν β)
    (c : Scene (Transcript δ ν β) ν β τ) :
    Ends (release H.transcribed key t entry) c
      (fun _ c' => c'.doc.exchanges
        = ⟨.done, .unlisten entry.node t entry.binding, .ok ()⟩ :: c.doc.exchanges)
      fun e c' => ∃ r, e = .host r ∧ c'.doc.exchanges
        = ⟨.done, .unlisten entry.node t entry.binding, .error r⟩ :: c.doc.exchanges := by
  rw [release, Step.ends_bind, ends_modifyListeners, ends_call]
  exact (Transcript.perform_ends _ c.doc).mono (fun _ _ hd => hd) fun r _ hd => ⟨r, rfl, hd⟩

/-- The bindings are handed back one after another, and what comes of it is the first refusal. -/
theorem releaseAll_exchanges (entries : List ((NodeKey × String) × Registry.Entry ν β))
    (c : Scene (Transcript δ ν β) ν β τ) :
    Ends (releaseAll H.transcribed entries) c
      (fun refusal c' => ∃ answers, answers.length = entries.length ∧
        c'.doc.exchanges = (farewells entries answers).reverse ++ c.doc.exchanges ∧
        refusal = firstRefusal answers)
      fun _ _ => False := by
  induction entries generalizing c with
  | nil => exact ⟨[], rfl, rfl, rfl⟩
  | cons p entries ih =>
    obtain ⟨⟨key, t⟩, entry⟩ := p
    -- whatever the answer is for this entry, the others get their calls
    have rest (answer : Except HostError Unit) (first : Option Error → Option Error)
        (hfirst : ∀ answers, firstRefusal (answer :: answers) = first (firstRefusal answers))
        (c₁ : Scene (Transcript δ ν β) ν β τ)
        (h₁ : c₁.doc.exchanges
          = ⟨.done, .unlisten entry.node t entry.binding, answer⟩ :: c.doc.exchanges) :
        Ends (releaseAll H.transcribed entries >>= fun later => pure (first later)) c₁
          (fun refusal c' => ∃ answers, answers.length = entries.length + 1 ∧
            c'.doc.exchanges
              = (farewells (((key, t), entry) :: entries) answers).reverse ++ c.doc.exchanges ∧
            refusal = firstRefusal answers)
          fun _ _ => False := by
      rw [Step.ends_bind]
      refine (ih c₁).mono (fun later c' h' => ?_) fun _ _ h' => h'
      obtain ⟨answers, hlength, hsaid, rfl⟩ := h'
      refine ⟨answer :: answers, congrArg Nat.succ hlength, ?_, (hfirst answers).symm⟩
      rw [hsaid, h₁, farewells, farewells, List.zipWith_cons_cons, List.reverse_cons,
        List.append_assoc]
      rfl
    rw [releaseAll, Step.ends_bind, Step.ends_outcome]
    refine (release_exchanges key t entry c).mono (fun _ c₁ h₁ => ?_) fun e c₁ h₁ => ?_
    · exact rest (.ok ()) id (fun _ => rfl) c₁ h₁
    · obtain ⟨r, rfl, h₁⟩ := h₁
      exact rest (.error r) (fun _ => some (.host r)) (fun _ => rfl) c₁ h₁

theorem firstRefusal_eq_none {answers : List (Except HostError Unit)}
    (h : firstRefusal answers = none) : ∀ answer ∈ answers, answer = .ok () := by
  induction answers with
  | nil => exact nofun
  | cons answer answers ih =>
    cases answer with
    | error r => cases h
    | ok => exact List.forall_mem_cons.mpr ⟨rfl, ih h⟩

theorem exists_of_firstRefusal {answers : List (Except HostError Unit)} {e : Error}
    (h : firstRefusal answers = some e) : ∃ before r after, e = .host r ∧
      answers = before ++ .error r :: after ∧ ∀ answer ∈ before, answer = .ok () := by
  induction answers with
  | nil => cases h
  | cons answer answers ih =>
    cases answer with
    | error r =>
      cases h
      exact ⟨[], r, answers, rfl, rfl, nofun⟩
    | ok =>
      obtain ⟨before, r, after, rfl, rfl, hbefore⟩ := ih h
      exact ⟨.ok () :: before, r, after, rfl, rfl, List.forall_mem_cons.mpr ⟨rfl, hbefore⟩⟩

/-- On the way from `c` to `c'` the bindings of all entries of `c` were handed back, and the
document gave these answers. -/
structure Answered (c : Scene (Transcript δ ν β) ν β τ) (answers : List (Except HostError Unit))
    (c' : Scene (Transcript δ ν β) ν β τ) : Prop where
  /-- There is one answer for every entry. -/
  length_eq : answers.length = c.listeners.entries.entries.length
  /-- The calls came in the order of the entries, and there were no others. -/
  exchanges_eq : c'.doc.exchanges
    = (farewells c.listeners.entries.entries answers).reverse ++ c.doc.exchanges

/-- A teardown of `c` with these answers leads to `c'`. -/
structure TornDown (c : Scene (Transcript δ ν β) ν β τ) (answers : List (Except HostError Unit))
    (c' : Scene (Transcript δ ν β) ν β τ) : Prop extends Answered c answers c' where
  /-- No listener is in use any more. -/
  isEmpty : c'.listeners.isEmpty = true
  /-- Nobody receives events any more. -/
  trampoline : c'.listeners.trampoline = none
  /-- Those that were in use are revoked. -/
  revoked : ∀ p ∈ c.listeners.entries.entries, c'.listeners.Revoked p.2.listener

/-- A teardown fails with the first refusal, after the calls for all entries. -/
theorem teardown_exchanges (c : Scene (Transcript δ ν β) ν β τ) :
    Ends (teardown H.transcribed) c
      (fun _ c' => ∃ answers, Answered c answers c' ∧ firstRefusal answers = none)
      fun e c' => ∃ answers, Answered c answers c' ∧ firstRefusal answers = some e := by
  rw [teardown, Step.ends_bind, Step.ends_get, Step.ends_bind]
  refine (releaseAll_exchanges _ c).mono (fun refusal c' h' => ?_) fun _ _ h' => h'.elim
  obtain ⟨answers, hlength, hexchanges, hrefusal⟩ := h'
  rw [Step.ends_bind, ends_modifyListeners]
  cases refusal with
  | none => exact ⟨answers, ⟨hlength, hexchanges⟩, hrefusal.symm⟩
  | some e => exact ⟨answers, ⟨hlength, hexchanges⟩, hrefusal.symm⟩

/-- Whatever was vouched for and in use is revoked once nothing is in use. -/
theorem Vouched.revoked_of_clear (h : Vouched c) (h' : Vouched c') (hdoc : c.doc.Extends c'.doc)
    (hclear : ∀ place, c'.listeners.entries.get? place = none) :
    ∀ p ∈ c.listeners.entries.entries, c'.listeners.Revoked p.2.listener := by
  intro p hp
  have hbound : c'.doc.Bound p.2.listener :=
    (h.bound (OrderedMap.get?_eq_some_iff.mpr hp)).mono hdoc
  refine (h'.kept hbound).resolve_left ?_
  rintro ⟨place, e, he, -⟩
  cases (hclear place).symm.trans he

/-- What is true of a teardown of `c`, where listeners have been attached at the places of `log`. -/
structure TakesDown (H : Host δ ν β) (log : List (NodeKey × String))
    (c : Scene (Transcript δ ν β) ν β τ) : Prop where
  /-- The entries stand in the order in which their places were last attached. -/
  order : c.places.Sublist log.dedup
  /-- The binding of an entry is the one that the document gave for its node, type and listener. -/
  granted : Granted c
  /-- The teardown succeeds if no call is refused, and fails with the first refusal otherwise. -/
  ends : Ends (teardown H.transcribed) c
    (fun _ c' => ∃ answers, TornDown c answers c' ∧ ∀ answer ∈ answers, answer = .ok ())
    fun e c' => ∃ before r after, e = .host r ∧ TornDown c (before ++ .error r :: after) c' ∧
      ∀ answer ∈ before, answer = .ok ()

/-- Whatever the document refuses, a teardown takes off all that was attached and is in use. -/
theorem teardown_of_logged (h : Logged H log c) : TakesDown H log c := by
  have torn {answers : List (Except HostError Unit)} {c' : Scene (Transcript δ ν β) ν β τ}
      (hvouched : StaysVouched c c')
      (hclear : (∀ place, c'.listeners.entries.get? place = none) ∧
        c'.listeners.trampoline = none)
      (hanswered : Answered c answers c') : TornDown c answers c' :=
    { hanswered with
      isEmpty := Registry.isEmpty_of_entries hclear.1
      trampoline := hclear.2
      revoked := h.vouched.revoked_of_clear (hvouched h.vouched).1 (hvouched h.vouched).2 hclear.1 }
  refine ⟨h.order, h.granted, ?_⟩
  refine (((custody_vouched.teardown c).and (teardown_clears c)).and (teardown_exchanges c)).mono
    (fun _ c' h' => ?_) fun e c' h' => ?_
  · obtain ⟨⟨hvouched, hclear⟩, answers, hanswered, hnone⟩ := h'
    exact ⟨answers, torn hvouched hclear hanswered, firstRefusal_eq_none hnone⟩
  · obtain ⟨⟨hvouched, hclear⟩, answers, hanswered, hsome⟩ := h'
    obtain ⟨before, r, after, rfl, rfl, hbefore⟩ := exists_of_firstRefusal hsome
    exact ⟨before, r, after, rfl, torn hvouched hclear hanswered, hbefore⟩

end Runs

/-! ### A listener that is attached again -/

/-- A watch that refuses the fifth call. -/
def refuseFifth (number : Nat) : Option HostError :=
  if number = 5 then some (.stated "busy") else none

/-- A container under that watch. -/
def fifthRefused : Host (Watched (Document ListenerId) NodeId Nat) NodeId Nat :=
  (Document.host id).watched refuseFifth

/-- A listener for a type of event at the container. -/
def attachTo (eventType : String) :
    Act (Transcript (Watched (Document ListenerId) NodeId Nat) NodeId Nat) NodeId Nat Unit Unit :=
  attach fifthRefused.transcribed ⟨0⟩ eventType (1, 2)

/-- Listeners for clicks, for inputs and again for clicks. The last one takes four calls. -/
def clickedAgain :
    Scene (Transcript (Watched (Document ListenerId) NodeId Nat) NodeId Nat) NodeId Nat Unit :=
  Step.after (attachTo "click") (Step.after (attachTo "input") (Step.after (attachTo "click")
    (.ofDoc ⟨⟨(Document.withContainer "main").1, #[]⟩, []⟩)))

theorem logged_clickedAgain :
    Logged fifthRefused [(⟨0⟩, "click"), (⟨0⟩, "input"), (⟨0⟩, "click")] clickedAgain := by
  have attached {log c} (h : Logged fifthRefused log c) (eventType : String)
      (hc : attachTo eventType c = .ok () (Step.after (attachTo eventType) c)) :
      Logged fifthRefused (log ++ [(⟨0⟩, eventType)]) (Step.after (attachTo eventType) c) := by
    have hlogs : Logs fifthRefused c (some (⟨0⟩, eventType)) (Step.after (attachTo eventType) c) :=
      .attached (⟨0⟩ : NodeId) eventType (1, 2) hc
    exact h.step hlogs
  have hstart := Logged.start (H := fifthRefused) (τ := Unit)
    ⟨(Document.withContainer "main").1, #[]⟩
  exact attached (attached (attached hstart "click" rfl) "input" rfl) "click" rfl

/-- The inputs go first, and are refused. The clicks go all the same. -/
theorem teardown_clickedAgain :
    TakesDown fifthRefused [(⟨0⟩, "click"), (⟨0⟩, "input"), (⟨0⟩, "click")] clickedAgain ∧
    clickedAgain.places = [(⟨0⟩, "input"), (⟨0⟩, "click")] ∧
    ∃ c', teardown fifthRefused.transcribed clickedAgain = .error (.host (.stated "busy")) c' ∧
      c'.listeners.isEmpty = true :=
  ⟨teardown_of_logged logged_clickedAgain, by decide, _, rfl, rfl⟩

end Scene

end TreeEdit
