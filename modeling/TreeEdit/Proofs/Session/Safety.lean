import TreeEdit.Proofs.Machine.Encoding
import TreeEdit.Proofs.Session.Reached

/-!
# What programs can do to a document

Nothing is assumed of the program here: its ranges may lie anywhere, and the memory may hold any
bytes. Of all that a document refuses, a program only ever runs into what a text does not have; it
never asks for a cycle or names a node that is not there (`host_error_of_apply`). And however it
ends, it has left everything alone but the nodes below its container and those that it made
(`bystanders_of_apply`).
-/

namespace TreeEdit.Session

open Binary (Bytes)
open Document (host)

variable {κ τ : Type} {wrap : ListenerId → κ} {s s' : Session (Document κ) NodeId Nat τ}

/-! ## Refusals -/

/-- A program that a document refuses something has asked a text for attributes or children. -/
theorem host_error_of_apply (h : Reached wrap s) (mem : Bytes) {r : HostError}
    (he : apply (host wrap) mem s = .error (.host r) s') :
    (∃ n, s'.doc.Known n ∧ s'.doc.tag? n = none ∧ r = .attributesOfText n.index) ∨
      r = .childrenOfText := by
  have hs := h.settled
  obtain ⟨-, -, hhalts⟩ := (Step.ends_iff.mp (apply_ends hs mem)).2 _ _ he
  obtain ⟨t, hmoves, ⟨hown, -⟩ | ⟨r', k, call, next, hr, hp, hc⟩⟩ := hhalts.last
  · exact absurd rfl (hown r)
  · cases hr
    have hplaced := placed_of_moves hs.placed hmoves
    obtain ⟨hnodes, hrefusal⟩ := Document.refusal_of_perform hplaced.wellFormed hc
    rcases hplaced.refusal hp hrefusal with ⟨n, hk, hn, hr⟩ | hr
    · refine .inl ⟨n, ?_, ?_, hr⟩
      · rwa [Document.Known, Document.size, hnodes]
      · rwa [Document.tag?, Document.node?, hnodes]
    · exact .inr hr

/-- A new session on the first node of a document, with a range of `len` bytes at the start of the
memory. -/
def onFirst (d : Document ListenerId) (len : UInt32) :
    Session (Document ListenerId) NodeId Nat Unit :=
  Step.after (queue ⟨0, len⟩) (start d ⟨0⟩ .standard)

/-- A container, and a session on it. -/
def onContainer : Session (Document ListenerId) NodeId Nat Unit :=
  onFirst (Document.withContainer "main").1 40

/-- A program that makes a text, and sets an attribute of it. -/
def attributeOfText : Bytes :=
  (Instr.addString 0 0 0).encode ++
    ((Instr.createText 0 0).encode ++ ((Instr.setAttribute 0 0).encode ++ []))

theorem onFirst_reached {d : Document ListenerId} (hd : d.Reachable) (h : d.Known ⟨0⟩)
    (len : UInt32) : Reached id (onFirst d len) :=
  .queue (.start hd h .standard) ⟨0, len⟩

theorem onContainer_reached : Reached id onContainer :=
  onFirst_reached (.inr ⟨"main", .refl⟩) Nat.zero_lt_one 40

theorem apply_attributeOfText :
    ∃ s', apply (host id) attributeOfText onContainer
      = .error (.host (.attributesOfText 1)) s' := by
  let m₀ := onContainer.toMachine.withSlots [none]
  obtain ⟨m, hm⟩ : ∃ m, Machine.runFrom (host id) attributeOfText false ⟨0, attributeOfText⟩ 0 m₀
      = .error (.host (.attributesOfText 1)) m := by
    refine ⟨?_, ?_⟩
    rotate_left
    · show Machine.runFrom (host id) attributeOfText false ⟨0, (Instr.addString 0 0 0).encode ++
        ((Instr.createText 0 0).encode ++ ((Instr.setAttribute 0 0).encode ++ []))⟩ 0 m₀ = _
      rw [Machine.runFrom_encode, Machine.runFrom_encode, Machine.runFrom_encode]
      rfl
  have hall : Machine.runAll (host id) attributeOfText false [⟨0, 40⟩] m₀
      = .error (.host (.attributesOfText 1)) m := Step.bind_error hm
  have hrun : run (host id) attributeOfText onContainer
      = .error (.host (.attributesOfText 1)) { onContainer with toMachine := m } :=
    run_of_runAll_error rfl hall
  rw [apply_of_active rfl (List.cons_ne_nil _ _), hrun]
  exact ⟨_, rfl⟩

/-- The text that the program makes is the node that has no attributes. -/
theorem text_refuses_attribute :
    Reached id onContainer ∧
      ∃ s', apply (host id) attributeOfText onContainer
          = .error (.host (.attributesOfText 1)) s' ∧
        ∃ n, s'.doc.Known n ∧ s'.doc.tag? n = none ∧ n.index = 1 := by
  obtain ⟨s', hs'⟩ := apply_attributeOfText
  refine ⟨onContainer_reached, s', hs', ?_⟩
  rcases host_error_of_apply (onContainer_reached) attributeOfText hs' with ⟨n, hk, hn, he⟩ | he
  · exact ⟨n, hk, hn, (HostError.attributesOfText.inj he).symm⟩
  · cases he

/-! ## Bystanders -/

/-- A run leaves every node alone that was there and not below the container, and changes nothing
of the container but its children. -/
theorem bystanders_of_apply (h : Reached wrap s) (mem : Bytes) :
    (∀ n, s.doc.Known n → n ≠ s.root → ¬ s.doc.Below n s.root →
      (Step.after (apply (host wrap) mem) s).doc.node? n = s.doc.node? n) ∧
    ∃ container children, s.doc.node? s.root = some container ∧
      (Step.after (apply (host wrap) mem) s).doc.node? s.root
        = some { container with children } := by
  have hs := h.settled
  -- at its end a run has come to a site, and a last refusal changes no node
  have hend : ∃ t, Moves wrap s.site t ∧
      ∀ n, (Step.after (apply (host wrap) mem) s).doc.node? n = t.doc.node? n := by
    refine Step.Ends.after
      (P := fun s' => ∃ t, Moves wrap s.site t ∧ ∀ n, s'.doc.node? n = t.doc.node? n)
      ((apply_ends hs mem).mono (fun _ s' hs' => ?_) fun e s' hs' => ?_)
    · obtain ⟨-, -, st, hst⟩ := hs'
      exact ⟨_, hst.moves, fun _ => rfl⟩
    · obtain ⟨-, -, hhalts⟩ := hs'
      obtain ⟨t, hmoves, ⟨-, hdoc⟩ | ⟨r, k, call, next, -, -, hc⟩⟩ := hhalts.last
      · refine ⟨t, hmoves, fun n => ?_⟩
        rw [hdoc]
      · refine ⟨t, hmoves, fun n => ?_⟩
        have hwf := (confined_of_moves hs.confined hmoves).wellFormed
        rw [Document.node?, (Document.refusal_of_perform hwf hc).1]
        rfl
  obtain ⟨t, hmoves, hnode⟩ := hend
  have hconfined := confined_of_moves hs.confined hmoves
  constructor
  · intro n hn hroot hbelow
    rw [hnode]
    refine hconfined.outside n ?_ hroot
    rintro (hin | hout)
    · exact hbelow hin
    · exact hout hn
  · obtain ⟨container, hcontainer⟩ := Document.known_iff.mp hs.root
    obtain ⟨children, hchildren⟩ := hconfined.container
    refine ⟨container, children, hcontainer, ?_⟩
    rw [hnode, hchildren, hcontainer]
    rfl

/-- A container, and an element that is not in it. -/
def withStranger : Document ListenerId :=
  Step.after ((host id).perform (.createElement "aside")) (Document.withContainer "main").1

/-- A program leaves an element that is not in its container alone. -/
theorem stranger_untouched :
    Reached id (onFirst withStranger 40) ∧ withStranger.Known ⟨1⟩ ∧
      ¬ withStranger.Below ⟨1⟩ ⟨0⟩ ∧
      (Step.after (apply (host id) attributeOfText) (onFirst withStranger 40)).doc.node? ⟨1⟩
        = withStranger.node? ⟨1⟩ := by
  have hd : withStranger.Reachable := Document.Reachable.perform (.inr ⟨"main", .refl⟩) id _
  have hs : Reached id (onFirst withStranger 40) := onFirst_reached hd (Nat.zero_lt_succ 1) 40
  have hk : withStranger.Known ⟨1⟩ := Nat.one_lt_two
  have hbelow : ¬ withStranger.Below ⟨1⟩ ⟨0⟩ := by
    intro h
    obtain ⟨p, hp, -⟩ := Relation.TransGen.head'_iff.mp h
    cases hp
  exact ⟨hs, hk, hbelow,
    (bystanders_of_apply hs attributeOfText).1 ⟨1⟩ hk (by decide) hbelow⟩

end TreeEdit.Session
