import Mathlib.Data.Fintype.Card
import Mathlib.Logic.Function.Basic
import Mathlib.Logic.Relation
import TreeEdit.Document.Edit

/-!
# Documents are forests

A document keeps every link twice: a node names its parent, and lists its children. `WellFormed`
says that the two agree, that going up never leads back, and that only elements have children. It
is what every call to a document preserves, and what the searches of a document rest on: no way up
from a node is longer than the document has nodes, so that a search which gives up after that many
steps gives up on nothing.

Main statements: `WellFormed.isInclusiveAncestor_iff` (the search for an ancestor decides the
relation `Within`), `WellFormed.wellFounded_up` and `WellFormed.wellFounded_down` (every way up and
every way down comes to an end).
-/

namespace TreeEdit.Document

variable {κ : Type} {d d' : Document κ}

/-! ## Nodes that are there -/

/-- The document has a node of this name. -/
def Known (d : Document κ) (id : NodeId) : Prop :=
  id.index < d.size

theorem node?_eq_none_iff {id : NodeId} : d.node? id = none ↔ ¬ d.Known id := by
  rw [node?, Array.getElem?_eq_none_iff, Known, size, Nat.not_lt]

theorem known_iff {id : NodeId} : d.Known id ↔ ∃ n, d.node? id = some n := by
  rw [← Option.ne_none_iff_exists', Ne, node?_eq_none_iff, not_not]

theorem known_of_node? {id : NodeId} {n : Node κ} (h : d.node? id = some n) : d.Known id :=
  known_iff.mpr ⟨n, h⟩

theorem parent?_of_node? {id : NodeId} {n : Node κ} (h : d.node? id = some n) :
    d.parent? id = n.parent := by
  rw [parent?, h, Option.bind_some]

theorem children_of_node? {id : NodeId} {n : Node κ} (h : d.node? id = some n) :
    d.children id = n.children := by
  rw [children, h, Option.map_some, Option.getD_some]

theorem parent?_of_unknown {id : NodeId} (h : ¬ d.Known id) : d.parent? id = none := by
  rw [parent?, node?_eq_none_iff.mpr h, Option.bind_none]

theorem children_of_unknown {id : NodeId} (h : ¬ d.Known id) : d.children id = [] := by
  rw [children, node?_eq_none_iff.mpr h, Option.map_none, Option.getD_none]

theorem tag?_of_unknown {id : NodeId} (h : ¬ d.Known id) : d.tag? id = none := by
  rw [tag?, node?_eq_none_iff.mpr h, Option.map_none]

theorem known_of_parent? {c p : NodeId} (h : d.parent? c = some p) : d.Known c := by
  by_contra hc
  rw [parent?_of_unknown hc] at h
  cases h

theorem known_of_tag? {id : NodeId} (h : (d.tag? id).isSome) : d.Known id := by
  by_contra hid
  rw [tag?_of_unknown hid] at h
  cases h

theorem tag?_isSome_iff {id : NodeId} : (d.tag? id).isSome ↔
    ∃ n tag attributes properties,
      d.node? id = some n ∧ n.content = .element tag attributes properties := by
  cases h : d.node? id with
  | none => simp [tag?, h]
  | some n => cases hc : n.content <;> simp [tag?, h, hc]

/-! ## Up and down -/

/-- `p` is the parent of `c`. -/
def ParentOf (d : Document κ) (c p : NodeId) : Prop :=
  d.parent? c = some p

/-- `n` lies in the subtree of `a`: going up from `n`, in no step or several, leads to `a`. -/
def Within (d : Document κ) (n a : NodeId) : Prop :=
  Relation.ReflTransGen d.ParentOf n a

/-- `n` lies in the subtree of `a` and is not `a` itself. -/
def Below (d : Document κ) (n a : NodeId) : Prop :=
  Relation.TransGen d.ParentOf n a

/-- The node that `steps` steps up from a node lead to. -/
def ancestor? (d : Document κ) : Nat → NodeId → Option NodeId
  | 0, id => some id
  | steps + 1, id => (d.parent? id).bind (d.ancestor? steps)

theorem ancestor?_succ_of_parent? {c p : NodeId} (h : d.parent? c = some p) (steps : Nat) :
    d.ancestor? (steps + 1) c = d.ancestor? steps p := by
  rw [ancestor?, h, Option.bind_some]

theorem ancestor?_add (i j : Nat) (id : NodeId) :
    d.ancestor? (i + j) id = (d.ancestor? i id).bind (d.ancestor? j) := by
  induction i generalizing id with
  | zero => rw [Nat.zero_add, ancestor?, Option.bind_some]
  | succ i ih =>
    rw [Nat.succ_add, ancestor?, ancestor?, Option.bind_assoc]
    exact Option.bind_congr fun p _ => ih p

theorem below_of_ancestor?_succ {j : Nat} {n a : NodeId} (h : d.ancestor? (j + 1) n = some a) :
    d.Below n a := by
  induction j generalizing n with
  | zero =>
    obtain ⟨p, hp, hpa⟩ := Option.bind_eq_some_iff.mp h
    cases hpa
    exact .single hp
  | succ j ih =>
    obtain ⟨p, hp, hpa⟩ := Option.bind_eq_some_iff.mp h
    exact .head hp (ih hpa)

theorem within_iff_ancestor? {n a : NodeId} : d.Within n a ↔ ∃ j, d.ancestor? j n = some a := by
  constructor
  · intro h
    induction h using Relation.ReflTransGen.head_induction_on with
    | refl => exact ⟨0, rfl⟩
    | head hp _ ih =>
      obtain ⟨j, hj⟩ := ih
      exact ⟨j + 1, (ancestor?_succ_of_parent? hp j).trans hj⟩
  · rintro ⟨j, hj⟩
    cases j with
    | zero =>
      cases hj
      exact .refl
    | succ j => exact (below_of_ancestor?_succ hj).to_reflTransGen

/-- A node has one parent only, so what lies strictly below a node's parent lies within a child. -/
theorem below_iff {n a : NodeId} : d.Below n a ↔ ∃ c, d.Within n c ∧ d.parent? c = some a :=
  Relation.TransGen.tail'_iff

theorem reachesWithin_iff {a n : NodeId} {steps : Nat} :
    d.reachesWithin a steps n = true ↔ ∃ j ≤ steps, d.ancestor? j n = some a := by
  -- on the steps that are allowed: the search stops here or goes on from the parent
  induction steps generalizing n with
  | zero => simp [reachesWithin, ancestor?]
  | succ steps ih =>
    rw [reachesWithin, Bool.or_eq_true, decide_eq_true_iff]
    constructor
    · rintro (rfl | h)
      · exact ⟨0, Nat.zero_le _, rfl⟩
      · split at h
        · rename_i p hp
          obtain ⟨j, hj, hja⟩ := ih.mp h
          exact ⟨j + 1, Nat.succ_le_succ hj, (ancestor?_succ_of_parent? hp j).trans hja⟩
        · cases h
    · rintro ⟨j, hj, hja⟩
      cases j with
      | zero => exact .inl (Option.some.inj hja)
      | succ j =>
        obtain ⟨p, hp, hpa⟩ := Option.bind_eq_some_iff.mp hja
        rw [hp]
        exact .inr (ih.mpr ⟨j, Nat.le_of_succ_le_succ hj, hpa⟩)

/-! ## Forests -/

/-- The links of a document make a forest of elements and texts. -/
structure WellFormed (d : Document κ) : Prop where
  /-- No node is listed twice. -/
  nodup : ∀ p, (d.children p).Nodup
  /-- A node is listed by its parent and by no other node. -/
  linked : ∀ p c, c ∈ d.children p ↔ d.parent? c = some p
  /-- Only elements are parents. -/
  bearing : ∀ c p, d.parent? c = some p → (d.tag? p).isSome
  /-- No node lies below itself. -/
  acyclic : ∀ n, ¬ d.Below n n

namespace WellFormed

variable {n a p c : NodeId}

theorem known_parent (hd : d.WellFormed) (h : d.parent? c = some p) : d.Known p :=
  known_of_tag? (hd.bearing c p h)

theorem known_of_within (hd : d.WellFormed) (h : d.Within n a) (hn : d.Known n) : d.Known a := by
  rcases h.cases_tail with rfl | ⟨c, _, hc⟩
  · exact hn
  · exact hd.known_parent hc

/-- A node that bears nothing has nothing but itself in its subtree. -/
theorem within_leaf (hd : d.WellFormed) (ha : d.tag? a = none) (h : d.Within n a) : a = n := by
  rcases h.cases_tail with he | ⟨c, _, hc⟩
  · exact he
  · have hs := hd.bearing c a hc
    rw [ha] at hs
    cases hs

/-- Texts and unknown nodes have no children. -/
theorem children_leaf (hd : d.WellFormed) (hp : d.tag? p = none) : d.children p = [] := by
  rw [List.eq_nil_iff_forall_not_mem]
  intro c hc
  have hs := hd.bearing c p ((hd.linked p c).mp hc)
  rw [hp] at hs
  cases hs

theorem parent?_of_firstChild? (hd : d.WellFormed) (h : d.firstChild? p = some c) :
    d.parent? c = some p :=
  (hd.linked p c).mp (List.mem_of_mem_head? h)

theorem parent?_of_nextSibling? (hd : d.WellFormed) {s : NodeId} (h : d.nextSibling? n = some s) :
    ∃ p, d.parent? n = some p ∧ d.parent? s = some p := by
  rw [nextSibling?, Option.bind_eq_bind, Option.bind_eq_some_iff] at h
  obtain ⟨p, hp, h⟩ := h
  rw [Option.bind_eq_bind, Option.bind_eq_some_iff] at h
  obtain ⟨place, _, hs⟩ := h
  exact ⟨p, hp, (hd.linked p s).mp (List.mem_of_getElem? hs)⟩

theorem not_within_of_parent? (hd : d.WellFormed) (h : d.parent? c = some p) : ¬ d.Within p c := by
  intro hpc
  exact hd.acyclic c (.head' h hpc)

/-! ### Ways come to an end -/

/-- No way up is longer than the document has nodes. -/
theorem lt_size_of_ancestor? (hd : d.WellFormed) {j : Nat} (h : d.ancestor? j n = some a)
    (hj : j ≠ 0) : j < d.size := by
  -- the nodes on the way, `n` and `a` included, are known and differ from one another
  have node (i : Fin (j + 1)) : ∃ x, d.ancestor? i n = some x ∧ d.Known x := by
    have hi := ancestor?_add (d := d) i (j - i) n
    rw [Nat.add_sub_cancel' (Nat.le_of_lt_succ i.isLt), h] at hi
    obtain ⟨x, hx, hxa⟩ := Option.bind_eq_some_iff.mp hi.symm
    refine ⟨x, hx, ?_⟩
    have hn : d.Known n := by
      cases j with
      | zero => exact absurd rfl hj
      | succ j =>
        obtain ⟨p, hp, _⟩ := Option.bind_eq_some_iff.mp h
        exact known_of_parent? hp
    exact hd.known_of_within (within_iff_ancestor?.mpr ⟨i, hx⟩) hn
  choose way hway hknown using node
  have apart (i k : Fin (j + 1)) (hik : i < k) : way i ≠ way k := by
    intro he
    obtain ⟨m, hm⟩ := Nat.exists_eq_add_of_lt (show (i : Nat) < k from hik)
    have hk := hway k
    rw [hm, Nat.add_assoc, ancestor?_add, hway i, Option.bind_some, ← he] at hk
    exact hd.acyclic _ (below_of_ancestor?_succ hk)
  have hinj : Function.Injective fun i => (⟨(way i).index, hknown i⟩ : Fin d.size) := by
    intro i k hik
    have he : way i = way k := NodeId.ext (Fin.mk.inj hik)
    rcases lt_trichotomy i k with hlt | heq | hgt
    · exact absurd he (apart i k hlt)
    · exact heq
    · exact absurd he.symm (apart k i hgt)
  have hcard := Fintype.card_le_of_injective _ hinj
  rw [Fintype.card_fin, Fintype.card_fin] at hcard
  exact hcard

/-- The search for an ancestor finds every ancestor. -/
theorem isInclusiveAncestor_iff (hd : d.WellFormed) :
    d.isInclusiveAncestor a n = true ↔ d.Within n a := by
  rw [isInclusiveAncestor, reachesWithin_iff, within_iff_ancestor?]
  constructor
  · rintro ⟨j, _, hj⟩
    exact ⟨j, hj⟩
  · rintro ⟨j, hj⟩
    -- the bound on the search is not in the way, since no way up is that long
    rcases Nat.eq_zero_or_pos j with rfl | hpos
    · exact ⟨0, Nat.zero_le _, hj⟩
    · exact ⟨j, (hd.lt_size_of_ancestor? hj (Nat.ne_of_gt hpos)).le, hj⟩

/-- The search for an ancestor does one step and goes on with the parent. -/
theorem isInclusiveAncestor_step (hd : d.WellFormed) (a n : NodeId) :
    d.isInclusiveAncestor a n
      = (decide (n = a) ||
          match d.parent? n with
          | some p => d.isInclusiveAncestor a p
          | none => false) := by
  rw [Bool.eq_iff_iff, hd.isInclusiveAncestor_iff, Bool.or_eq_true, decide_eq_true_iff, Within,
    Relation.ReflTransGen.cases_head_iff]
  refine or_congr Iff.rfl ?_
  cases hp : d.parent? n with
  | none =>
    simp only [Bool.false_eq_true, iff_false]
    rintro ⟨p, hp', _⟩
    rw [ParentOf, hp] at hp'
    cases hp'
  | some p =>
    rw [hd.isInclusiveAncestor_iff]
    constructor
    · rintro ⟨p', hp', h⟩
      rw [ParentOf, hp] at hp'
      cases hp'
      exact h
    · exact fun h => ⟨p, hp, h⟩

/-- Every way up ends. -/
theorem wellFounded_up (hd : d.WellFormed) : WellFounded fun p c => d.parent? c = some p := by
  -- by the number of steps after which the way up is over
  have key : ∀ (k : Nat) (n : NodeId), d.ancestor? k n = none →
      Acc (fun p c => d.parent? c = some p) n := by
    intro k
    induction k with
    | zero =>
      intro n h
      cases h
    | succ k ih =>
      intro n h
      refine ⟨n, fun p hp => ih p ?_⟩
      rw [← ancestor?_succ_of_parent? hp, h]
  refine ⟨fun n => key (d.size + 1) n ?_⟩
  rw [Option.eq_none_iff_forall_ne_some]
  intro a ha
  have := hd.lt_size_of_ancestor? ha (Nat.succ_ne_zero _)
  omega

/-- Every way down ends. -/
theorem wellFounded_down (hd : d.WellFormed) : WellFounded fun c p => c ∈ d.children p := by
  -- a node that is `j` steps below another one has no way down longer than `d.size - j`
  have key : ∀ (k j : Nat) (n a : NodeId), d.ancestor? j n = some a → d.size + 1 ≤ j + k →
      Acc (fun c p => c ∈ d.children p) n := by
    intro k
    induction k with
    | zero =>
      intro j n a ha hj
      have := hd.lt_size_of_ancestor? ha (by omega)
      omega
    | succ k ih =>
      intro j n a ha hj
      refine ⟨n, fun c hc => ih (j + 1) c a ?_ (by omega)⟩
      rw [ancestor?_succ_of_parent? ((hd.linked n c).mp hc), ha]
  exact ⟨fun n => key (d.size + 1) 0 n n rfl (by omega)⟩

end WellFormed

end TreeEdit.Document
