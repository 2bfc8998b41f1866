import TreeEdit.Proofs.Document.Cropping
import TreeEdit.Proofs.Document.Sequences
import TreeEdit.Proofs.Document.Reachable
import TreeEdit.Proofs.Machine.Folding

/-!
# Walks along children

A program visits the children of a node by pushing the first one and then going from sibling to
sibling. The next sibling is looked up by the place of the node in the list of its parent, so that
the walk keeps to the list: after `k` steps the `k`-th child is on top, after as many steps as there
are children an absent slot, and the step after that fails (`walk_of_getElem?`). A child that is
replaced on the way leaves the rest of the walk as it was (`children_of_replace`).

Main statement: `walk_of_reachable`.
-/

namespace TreeEdit

variable {δ ν β κ τ : Type}

/-! ## Lists of children -/

namespace Document

variable {d d' : Document κ} {p c old new : NodeId} {i : Nat}

/-- The sibling after the child at place `i` is the child at the place after it. -/
theorem WellFormed.nextSibling?_of_getElem? (hd : d.WellFormed)
    (h : (d.children p)[i]? = some c) : d.nextSibling? c = (d.children p)[i + 1]? := by
  obtain ⟨hi, hc⟩ := List.getElem?_eq_some_iff.mp h
  have hlist : d.children p = (d.children p).take i ++ c :: (d.children p).drop (i + 1) := by
    rw [← hc, ← List.drop_eq_getElem_cons hi, List.take_append_drop]
  rw [hd.nextSibling?_eq hlist, List.head?_drop]

/-- A node that is no sibling of a child takes its place, and the other children keep theirs. -/
theorem children_of_replace (hd : d.WellFormed) (hi : (d.children p)[i]? = some old)
    (hnew : new ∈ d.children p → new = old) (h : replace old new d = .ok () d') :
    d'.children p = (d.children p).set i new := by
  obtain ⟨hlt, hold⟩ := List.getElem?_eq_some_iff.mp hi
  have hp : d.parent? old = some p := (hd.linked p old).mp (List.mem_of_getElem? hi)
  cases (replace_fulfils hd old new).done d' h with
  | idle hidle hd' =>
    rcases hidle with hnone | rfl
    · cases hp.symm.trans hnone
    · rw [hd', ← hold, List.set_getElem_self]
  | moved hp' hne hplace =>
    cases hp.symm.trans hp'
    obtain ⟨before, after, hbefore, hafter⟩ := hplace.list
    have hout : new ∉ d.children p := fun hin => hne (hnew hin).symm
    have hsame : (d.children p).filter (· ≠ new) = d.children p := by
      rw [List.filter_eq_self]
      intro x hx
      rw [decide_eq_true_iff]
      rintro rfl
      exact hout hx
    rw [hsame] at hbefore
    -- the old child stands at one place only
    have hlen : before.length = i := by
      have hthere : (d.children p)[before.length]? = some old := by
        rw [hbefore, List.getElem?_append_right (Nat.le_refl _), Nat.sub_self,
          List.getElem?_cons_zero]
      exact ((List.getElem?_inj hlt (hd.nodup p)).mp (hi.trans hthere.symm)).symm
    rw [hafter, hbefore, ← hlen, List.set_append_right _ _ (Nat.le_refl _), Nat.sub_self,
      List.set_cons_zero]

end Document

/-! ## Slots -/

/-- There is room for one more slot on top of `slots`. -/
def Stack.RoomOn (s : Stack ν) (slots : List (Option ν)) : Prop :=
  ∀ limit, s.limit = some limit → slots.length < limit

namespace Machine

open Document (host)

variable {H : Host δ ν β} {m m' : Machine δ ν β τ} {st : List (Option ν)} {mem : Binary.Bytes}

theorem push_of_roomOn (h : m.stack.RoomOn m.stack.slots) (slot : Option ν) :
    onStack (Stack.push slot) m = .ok () (m.withSlots (slot :: m.stack.slots)) :=
  Step.onPart_ok (Stack.push_of_room h slot)

theorem roomOn_of_push {slot : Option ν} (h : onStack (Stack.push slot) m = .ok () m') :
    m.stack.RoomOn m.stack.slots ∧ m' = m.withSlots (slot :: m.stack.slots) := by
  by_cases hroom : m.stack.RoomOn m.stack.slots
  · refine ⟨hroom, ?_⟩
    cases (push_of_roomOn hroom slot).symm.trans h
    rfl
  · unfold Stack.RoomOn at hroom
    push Not at hroom
    obtain ⟨limit, hlimit, hfull⟩ := hroom
    rw [onStack, Step.onPart_error (Stack.push_of_full hlimit hfull slot)] at h
    cases h

/-! ## The instructions of a walk -/

theorem exec_pushFirstChild {node : ν} (hst : m.stack.slots = some node :: st)
    (hroom : m.stack.RoomOn m.stack.slots) :
    exec H mem .pushFirstChild m
      = .ok () (m.withSlots (H.firstChild m.doc node :: some node :: st)) := by
  rw [exec, Step.bind_ok (topNode_of_slots hst _), Step.get_bind, push_of_roomOn hroom, hst]

theorem exec_popPushNextSibling {node : ν} (hst : m.stack.slots = some node :: st)
    (hroom : m.stack.RoomOn st) :
    exec H mem .popPushNextSibling m = .ok () (m.withSlots (H.nextSibling m.doc node :: st)) := by
  rw [exec, Step.bind_ok (popNode_of_slots hst _), Step.get_bind, push_of_roomOn]
  · rfl
  · exact hroom

/-- On an absent node the walk cannot go on. -/
theorem exec_popPushNextSibling_absent (hst : m.stack.slots = none :: st) :
    exec H mem .popPushNextSibling m
      = .error (.absentNode .popPushNextSibling) (m.withSlots st) := by
  obtain ⟨s, ⟨slots, limit⟩, strings⟩ := m
  cases hst
  rfl

/-- A replacement that succeeds has been granted by the document, and there was room for the new
node. -/
theorem exec_replaceWith_ok {old new : ν} (hst : m.stack.slots = some new :: some old :: st)
    (h : exec H mem .replaceWith m = .ok () m') :
    m.stack.RoomOn st ∧ ∃ doc, H.perform (.replace old new) m.doc = .ok () doc ∧
      m' = { m.withSlots (some new :: st) with doc } := by
  rw [exec, Step.bind_ok (popNode_of_slots hst _),
    Step.bind_ok (popNode_of_slots (slots_withSlots _) _)] at h
  have hends : Step.Ends (call H (.replace old new) >>= fun _ => onStack (Stack.push (some new)))
      ((m.withSlots (some old :: st)).withSlots st)
      (fun _ m' => m.stack.RoomOn st ∧ ∃ doc, H.perform (.replace old new) m.doc = .ok () doc ∧
        m' = { m.withSlots (some new :: st) with doc })
      fun _ _ => True := by
    rw [Step.ends_bind, ends_call]
    refine Step.ends_iff.mpr ⟨fun _ doc hdoc => ?_, fun _ _ _ => trivial⟩
    refine Step.ends_iff.mpr ⟨fun _ m' hpush => ?_, fun _ _ _ => trivial⟩
    obtain ⟨hroom, rfl⟩ := roomOn_of_push hpush
    exact ⟨hroom, doc, hdoc, rfl⟩
  exact (Step.ends_iff.mp hends).1 () m' h

/-! ## Walks -/

/-- Executes instructions one after another. -/
def execAll (H : Host δ ν β) (mem : Binary.Bytes) (is : List Instr) : Act δ ν β τ Unit :=
  is.forM (exec H mem)

/-- Comes to place `i` of a list of nodes, with that node on top of the slots `st`. The place after
the last node is absent, and no step leads on from there. -/
def arrive (nodes : List ν) (st : List (Option ν)) (i : Nat) : Act δ ν β τ Unit := fun m =>
  if i ≤ nodes.length then .ok () (m.withSlots (nodes[i]? :: st))
  else .error (.absentNode .popPushNextSibling) (m.withSlots st)

theorem execAll_cons (i : Instr) (is : List Instr) :
    (execAll H mem (i :: is) : Act δ ν β τ Unit)
      = exec H mem i >>= fun _ => execAll H mem is := rfl

/-- An untraced attempt is no more than the execution. -/
theorem attemptAll_untraced (ops : List (Nat × Instr)) :
    (attemptAll H mem false ops : Act δ ν β τ Unit) = execAll H mem (ops.map Prod.snd) := by
  induction ops with
  | nil => rfl
  | cons op ops ih =>
    rw [attemptAll_cons, List.map_cons, execAll_cons, ih]
    rfl

/-- Which node stands at another place makes no difference. -/
theorem arrive_set (nodes : List ν) {i k : Nat} (hne : k ≠ i) (node : ν) :
    (arrive (nodes.set k node) st i : Act δ ν β τ Unit) = arrive nodes st i := by
  funext m
  rw [arrive, arrive, List.length_set, List.getElem?_set_ne hne]

variable {wrap : ListenerId → κ} {m m' : Machine (Document κ) NodeId Nat τ} {p old new : NodeId}
  {st : List (Option NodeId)}

/-- From the child at place `i`, so many steps lead to the place so much further. -/
theorem walk_of_getElem? (hd : m.doc.WellFormed) {i : Nat} (hi : i ≤ (m.doc.children p).length)
    (hst : m.stack.slots = (m.doc.children p)[i]? :: st) (hroom : m.stack.RoomOn st) (steps : Nat) :
    execAll (host wrap) mem (List.replicate steps .popPushNextSibling) m
      = arrive (m.doc.children p) st (i + steps) m := by
  -- on the number of steps: the first one leads to the next place, or there is none
  induction steps generalizing i m with
  | zero =>
    rw [Nat.add_zero, arrive, if_pos hi, ← hst]
    rfl
  | succ steps ih =>
    rw [List.replicate_succ, execAll_cons]
    cases hc : (m.doc.children p)[i]? with
    | none =>
      rw [hc] at hst
      rw [Step.bind_error (exec_popPushNextSibling_absent hst), arrive, if_neg]
      have := List.getElem?_eq_none_iff.mp hc
      omega
    | some c =>
      rw [hc] at hst
      have hlt : i < (m.doc.children p).length := (List.getElem?_eq_some_iff.mp hc).1
      have hnext : (host wrap).nextSibling m.doc c = (m.doc.children p)[i + 1]? :=
        hd.nextSibling?_of_getElem? hc
      have hsum : i + (steps + 1) = i + 1 + steps := by omega
      rw [Step.bind_ok (exec_popPushNextSibling hst hroom), hnext, hsum]
      exact ih (m := m.withSlots ((m.doc.children p)[i + 1]? :: st)) hd hlt rfl hroom

/-- What programs find when they go along the children of a node. -/
structure Walks (wrap : ListenerId → κ) (m : Machine (Document κ) NodeId Nat τ) : Prop where
  /-- From the node, pushing the first child and `k` steps lead to the child at place `k`. -/
  visit : ∀ p st, m.stack.slots = some p :: st → m.stack.RoomOn m.stack.slots → ∀ mem k,
    execAll (host wrap) mem (.pushFirstChild :: List.replicate k .popPushNextSibling) m
      = arrive (m.doc.children p) (some p :: st) k m
  /-- So they do in a program. -/
  program : ∀ p st, m.stack.slots = some p :: st → m.stack.RoomOn m.stack.slots →
    ∀ mem span ops k, Instr.decodeRange mem span.start span.len = .ok ops →
      ops.map Prod.snd = .pushFirstChild :: List.replicate k .popPushNextSibling →
      runRange (host wrap) mem false span m = (do
        arrive (m.doc.children p) (some p :: st) k
        return k + 1) m
  /-- From the place `k` of a child that was replaced, `steps` steps lead on as they would have
  done before. -/
  resume : ∀ p k old new st, m.stack.slots = some new :: some old :: st →
    (m.doc.children p)[k]? = some old → (new ∈ m.doc.children p → new = old) →
    ∀ mem m', exec (host wrap) mem .replaceWith m = .ok () m' →
      m.doc.nextSibling? old = (m.doc.children p)[k + 1]? ∧
      ∀ steps, execAll (host wrap) mem (List.replicate (steps + 1) .popPushNextSibling) m'
        = arrive (m.doc.children p) st (k + (steps + 1)) m'

theorem visit_ends (hd : m.doc.WellFormed) (hst : m.stack.slots = some p :: st)
    (hroom : m.stack.RoomOn m.stack.slots) (mem : Binary.Bytes) (k : Nat) :
    execAll (host wrap) mem (.pushFirstChild :: List.replicate k .popPushNextSibling) m
      = arrive (m.doc.children p) (some p :: st) k m := by
  have hfirst : (host wrap).firstChild m.doc p = (m.doc.children p)[0]? :=
    List.head?_eq_getElem?
  rw [execAll_cons, Step.bind_ok (exec_pushFirstChild hst hroom), hfirst]
  rw [hst] at hroom
  refine (walk_of_getElem? (m := m.withSlots ((m.doc.children p)[0]? :: some p :: st)) hd
    (Nat.zero_le _) rfl hroom k).trans ?_
  rw [Nat.zero_add]
  rfl

/-- Walks along children keep to the order of the children, in whatever document. -/
theorem walk_of_reachable (hd : m.doc.Reachable) : Walks wrap m where
  visit p st hst hroom mem k := visit_ends hd.wellFormed hst hroom mem k
  program p st hst hroom mem span ops k hops his := by
    have hlength : ops.length = k + 1 := by
      rw [← List.length_map (f := Prod.snd), his, List.length_cons, List.length_replicate]
    rw [(runRange_folds (host wrap) mem false span).complete ops hops, attemptAll_untraced, his,
      hlength]
    show EStateM.bind _ _ m = EStateM.bind _ _ m
    rw [EStateM.bind, EStateM.bind, visit_ends hd.wellFormed hst hroom mem k]
  resume p k old new st hst hk hnew mem m' h := by
    have hwf := hd.wellFormed
    refine ⟨hwf.nextSibling?_of_getElem? hk, fun steps => ?_⟩
    obtain ⟨hroom, d', hreplace, hm'⟩ := exec_replaceWith_ok hst h
    have hlist : m'.doc.children p = (m.doc.children p).set k new := by
      rw [hm']
      exact Document.children_of_replace hwf hk hnew hreplace
    have hwf' : m'.doc.WellFormed := by
      rw [hm']
      exact (Document.effect_of_perform hwf hreplace).wellFormed
    have hlt : k < (m.doc.children p).length := (List.getElem?_eq_some_iff.mp hk).1
    have hst' : m'.stack.slots = (m'.doc.children p)[k]? :: st := by
      rw [hlist, List.getElem?_set_self hlt, hm']
      rfl
    have hroom' : m'.stack.RoomOn st := by
      rw [hm']
      exact hroom
    have hle : k ≤ (m'.doc.children p).length := by
      rw [hlist, List.length_set]
      exact Nat.le_of_lt hlt
    rw [walk_of_getElem? hwf' hle hst' hroom', hlist, arrive_set _ (by omega)]

/-- A list with two elements, and an element that has no place yet. -/
def itemsAndSpare : Document ListenerId :=
  Step.after (do
    Document.append ⟨0⟩ (← Document.createElement "li")
    let _ ← Document.createElement "hr") (Document.withSeed "ul" "li")

/-- A machine with room for two slots that has some slots on its stack. -/
def onItems (slots : List (Option NodeId)) : Machine (Document ListenerId) NodeId Nat Unit :=
  (ofDoc itemsAndSpare (some 2)).withSlots slots

theorem itemsAndSpare_reachable : itemsAndSpare.Reachable := by
  have h₁ := (Document.withSeed_reachable "ul" "li").perform id (.createElement "li")
  have h₂ := (h₁.perform id (.append ⟨0⟩ ⟨2⟩)).perform id (.createElement "hr")
  exact h₂

/-- The walk comes to the second element, to the end and no further. It does so, too, if the first
element gives way to the other one. -/
theorem walk_itemsAndSpare :
    itemsAndSpare.Reachable ∧
    execAll (host id) [] [.pushFirstChild, .popPushNextSibling] (onItems [some ⟨0⟩])
      = .ok () (onItems [some ⟨2⟩, some ⟨0⟩]) ∧
    execAll (host id) []
        [.pushFirstChild, .popPushNextSibling, .popPushNextSibling, .popPushNextSibling]
        (onItems [some ⟨0⟩])
      = .error (.absentNode .popPushNextSibling) (onItems [some ⟨0⟩]) ∧
    ∃ m', exec (host id) [] .replaceWith (onItems [some ⟨3⟩, some ⟨1⟩]) = .ok () m' ∧
      m'.doc.children ⟨0⟩ = [⟨3⟩, ⟨2⟩] ∧
      execAll (host id) [] [.popPushNextSibling] m' = .ok () (m'.withSlots [some ⟨2⟩]) := by
  have hwalks (slots : List (Option NodeId)) : Walks id (onItems slots) :=
    walk_of_reachable itemsAndSpare_reachable
  have hroom : (onItems [some ⟨0⟩]).stack.RoomOn (onItems [some ⟨0⟩]).stack.slots := by
    rintro limit ⟨⟩
    decide
  refine ⟨itemsAndSpare_reachable, (hwalks _).visit ⟨0⟩ [] rfl hroom [] 1,
    (hwalks _).visit ⟨0⟩ [] rfl hroom [] 3, _, rfl, rfl, ?_⟩
  exact ((hwalks _).resume ⟨0⟩ 0 ⟨1⟩ ⟨3⟩ [] rfl rfl (by decide) [] _ rfl).2 0

end Machine

end TreeEdit
