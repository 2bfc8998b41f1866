import TreeEdit.Proofs.Document.Building
import TreeEdit.Proofs.Document.Marks
import TreeEdit.Proofs.Document.Reachable

/-!
# What markup says of a subtree

Texts that are next to each other run together in markup, and an empty text leaves no trace. All
else is kept if tags and attribute names are words: two subtrees have the same markup just when they
are the same after adjacent texts are merged and empty ones dropped (`markup_eq_iff_of_reachable`).
So whatever the texts and the values of attributes are, they make no tag and change none.

A forest is settled when its texts are. What a forest settles to can be read off its marks from the
end to the start, without the forest (`Tree.settleAll_eq_iff_marks`).
-/

namespace TreeEdit

namespace Tree

/-! ## Settling texts -/

/-- Puts a text in front of some trees. It becomes part of a text that is first there, and an empty
text is dropped. -/
def joinText (t : String) : List Tree → List Tree
  | .text u :: ts => .text (t ++ u) :: ts
  | ts => if t = "" then ts else .text t :: ts

mutual

/-- Puts a tree in front of some trees, and settles its texts. -/
def settle : Tree → List Tree → List Tree
  | element tag attributes children, ts => element tag attributes (settleAll children) :: ts
  | text t, ts => joinText t ts

/-- The trees after adjacent texts are merged and empty ones dropped, on all levels. -/
def settleAll : List Tree → List Tree
  | [] => []
  | t :: ts => settle t (settleAll ts)

end

/-- The trees have the same shape, the same tags and attributes, and the same texts if adjacent ones
are merged and empty ones dropped. -/
def Alike (t t' : Tree) : Prop :=
  settleAll [t] = settleAll [t']

/-- Trees begin with a text, or else a text in front of them stays by itself. -/
theorem joinText_cases (ts : List Tree) : (∃ u us, ts = .text u :: us) ∨
    ∀ t, joinText t ts = if t = "" then ts else .text t :: ts := by
  cases ts with
  | nil => exact .inr fun _ => rfl
  | cons t ts =>
    cases t with
    | element tag attributes children => exact .inr fun _ => rfl
    | text u => exact .inl ⟨u, ts, rfl⟩

theorem joinText_empty (ts : List Tree) : joinText "" ts = ts := by
  rcases joinText_cases ts with ⟨u, us, rfl⟩ | h
  · rw [joinText, String.empty_append]
  · rw [h, if_pos rfl]

/-- Texts may be put there one after another or at once. -/
theorem joinText_joinText (t u : String) (ts : List Tree) :
    joinText t (joinText u ts) = joinText (t ++ u) ts := by
  rcases joinText_cases ts with ⟨v, us, rfl⟩ | h
  · rw [joinText, joinText, joinText, String.append_assoc]
  · by_cases hu : u = ""
    · rw [hu, joinText_empty, String.append_empty]
    · have htu : t ++ u ≠ "" := fun htu => hu (String.append_eq_empty_iff.mp htu).2
      rw [h, h, if_neg hu, if_neg htu, joinText]

/-! ### Settled trees have the same marks -/

theorem marksAll_singleton (t : Tree) : marksAll [t] = t.marks := by
  rw [marksAll, marksAll, List.append_nil]

theorem marksAll_joinText (t : String) (ts : List Tree) :
    marksAll (joinText t ts) = t.toList.map .letter ++ marksAll ts := by
  rcases joinText_cases ts with ⟨u, us, rfl⟩ | h
  · rw [joinText, marksAll, marksAll, marks, marks, String.toList_append, List.map_append,
      List.append_assoc]
  · rw [h]
    split
    · rename_i ht
      rw [ht]
      rfl
    · rw [marksAll, marks]

mutual

theorem marksAll_settle (t : Tree) (ts : List Tree) :
    marksAll (t.settle ts) = t.marks ++ marksAll ts := by
  cases t with
  | element tag attributes children =>
    rw [settle, marksAll, marks, marks, marksAll_settleAll children]
  | text t => exact marksAll_joinText t ts

theorem marksAll_settleAll (ts : List Tree) : marksAll (settleAll ts) = marksAll ts := by
  cases ts with
  | nil => rfl
  | cons t ts => rw [settleAll, marksAll_settle t, marksAll_settleAll ts, marksAll]

end

theorem mem_marksAll {m : Mark} {ts : List Tree} : m ∈ marksAll ts ↔ ∃ t ∈ ts, m ∈ t.marks := by
  induction ts with
  | nil => simp [marksAll]
  | cons t ts ih => rw [marksAll, List.mem_append, ih, List.exists_mem_cons_iff]

/-! ### Reading settled trees off marks -/

/-- Takes in the mark before what is read. An end tag opens a new level, on which the trees of the
element are read; its start tag closes it. -/
def absorb : Mark → List Tree × List (List Tree) → List Tree × List (List Tree)
  | .letter c, (ts, levels) => (joinText (String.singleton c) ts, levels)
  | .stop _, (ts, levels) => ([], ts :: levels)
  | .start tag attributes, (ts, outer :: levels) => (.element tag attributes ts :: outer, levels)
  | .start _ _, (ts, []) => (ts, [])

/-- What the marks say, given what is read after them. -/
def read (marks : List Mark) (later : List Tree × List (List Tree)) :
    List Tree × List (List Tree) :=
  marks.foldr absorb later

theorem read_append (marks marks' : List Mark) (later : List Tree × List (List Tree)) :
    read (marks ++ marks') later = read marks (read marks' later) :=
  List.foldr_append

theorem read_letters (cs : List Char) (ts : List Tree) (levels : List (List Tree)) :
    read (cs.map .letter) (ts, levels) = (joinText (String.ofList cs) ts, levels) := by
  induction cs with
  | nil => rw [String.ofList_nil, joinText_empty]; rfl
  | cons c cs ih =>
    have hcons : String.ofList (c :: cs) = String.singleton c ++ String.ofList cs := by
      rw [← String.toList_inj, String.toList_append, String.toList_ofList, String.toList_ofList,
        String.toList_singleton, List.singleton_append]
    show absorb (.letter c) (read (cs.map .letter) (ts, levels)) = _
    rw [ih, absorb, joinText_joinText, hcons]

mutual

theorem read_marks (t : Tree) (ts : List Tree) (levels : List (List Tree)) :
    read t.marks (ts, levels) = (t.settle ts, levels) := by
  cases t with
  | element tag attributes children =>
    have hchildren := read_marksAll children (ts :: levels)
    rw [marks, List.cons_append, settle]
    show absorb _ (read (marksAll children ++ [.stop tag]) (ts, levels)) = _
    rw [read_append]
    show absorb _ (read (marksAll children) ([], ts :: levels)) = _
    rw [hchildren]
    rfl
  | text t =>
    rw [marks, read_letters, String.ofList_toList, settle]

theorem read_marksAll (ts : List Tree) (levels : List (List Tree)) :
    read (marksAll ts) ([], levels) = (settleAll ts, levels) := by
  cases ts with
  | nil => rfl
  | cons t ts => rw [marksAll, read_append, read_marksAll ts, read_marks t, settleAll]

end

/-- Trees settle to the same just when they have the same marks. -/
theorem settleAll_eq_iff_marks {ts ts' : List Tree} :
    settleAll ts = settleAll ts' ↔ marksAll ts = marksAll ts' := by
  refine ⟨fun h => ?_, fun h => ?_⟩
  · rw [← marksAll_settleAll ts, h, marksAll_settleAll]
  · have hread : (settleAll ts, ([] : List (List Tree))) = (settleAll ts', []) := by
      rw [← read_marksAll, h, read_marksAll]
    exact (Prod.mk.inj hread).1

theorem alike_iff_marks {t t' : Tree} : t.Alike t' ↔ t.marks = t'.marks := by
  rw [Alike, settleAll_eq_iff_marks, marksAll_singleton, marksAll_singleton]

/-! ### Elements alone -/

mutual

/-- The elements of a tree with their attributes, without the texts. -/
def frame : Tree → List Tree
  | element tag attributes children => [element tag attributes (frameAll children)]
  | text _ => []

/-- The elements of some trees, without the texts. -/
def frameAll : List Tree → List Tree
  | [] => []
  | t :: ts => frame t ++ frameAll ts

end

theorem frameAll_singleton (t : Tree) : frameAll [t] = t.frame := by
  rw [frameAll, frameAll, List.append_nil]

theorem frameAll_joinText (t : String) (ts : List Tree) :
    frameAll (joinText t ts) = frameAll ts := by
  rcases joinText_cases ts with ⟨u, us, rfl⟩ | h
  · rw [joinText, frameAll, frameAll, frame, frame]
  · rw [h]
    split
    · rfl
    · rw [frameAll, frame, List.nil_append]

mutual

theorem frameAll_settle (t : Tree) (ts : List Tree) :
    frameAll (t.settle ts) = t.frame ++ frameAll ts := by
  cases t with
  | element tag attributes children =>
    rw [settle, frameAll, frame, frame, frameAll_settleAll children]
  | text t => exact frameAll_joinText t ts

theorem frameAll_settleAll (ts : List Tree) : frameAll (settleAll ts) = frameAll ts := by
  cases ts with
  | nil => rfl
  | cons t ts => rw [settleAll, frameAll_settle t, frameAll_settleAll ts, frameAll]

end

theorem Alike.frame_eq {t t' : Tree} (h : t.Alike t') : t.frame = t'.frame := by
  have hframes : frameAll [t] = frameAll [t'] := by
    rw [← frameAll_settleAll [t], h, frameAll_settleAll]
  rwa [frameAll_singleton, frameAll_singleton] at hframes

end Tree

/-- A list is related to another one element by element just when a function says what to. -/
theorem forall₂_iff_map {α β : Type} {R : α → β → Prop} {f : α → Option β} {l : List α}
    {l' : List β} (h : ∀ a ∈ l, ∀ b, R a b ↔ f a = some b) :
    List.Forall₂ R l l' ↔ l.map f = l'.map some := by
  induction l generalizing l' with
  | nil => cases l' <;> simp
  | cons a l ih =>
    cases l' with
    | nil => simp
    | cons b l' =>
      rw [List.forall₂_cons, List.map_cons, List.map_cons, List.cons.injEq,
        h a List.mem_cons_self, ih fun a ha => h a (List.mem_cons_of_mem _ ha)]

namespace Document

variable {κ κ' : Type} {d : Document κ} {d' : Document κ'} {n n' : NodeId} {t : Tree}

/-! ## The subtrees of a document -/

/-- The tree is what the document has at the node and below. -/
inductive Heads (d : Document κ) : NodeId → Tree → Prop
  | text {n : NodeId} {m : Node κ} {t : String} (hm : d.node? n = some m)
      (hc : m.content = .text t) : Heads d n (.text t)
  | element {n : NodeId} {m : Node κ} {tag : String} {attributes : OrderedMap String String}
      {properties : Properties} {children : List Tree} (hm : d.node? n = some m)
      (hc : m.content = .element tag attributes properties)
      (hchildren : List.Forall₂ (Heads d) m.children children) :
      Heads d n (.element tag attributes.entries children)

/-- The tree is the one that is read off the document. -/
theorem heads_iff_tree? (hd : d.WellFormed) : d.Heads n t ↔ d.tree? n = some t := by
  induction n using hd.wellFounded_down.induction generalizing t with
  | _ n ih =>
    have hsub {m : Node κ} (hm : d.node? n = some m) (children : List Tree) :
        List.Forall₂ d.Heads m.children children ↔
          m.children.map d.tree? = children.map some :=
      forall₂_iff_map fun c hc b => ih c (by rwa [children_of_node? hm])
    constructor
    · intro h
      cases h with
      | text hm hc => rw [hd.tree?_eq, hm, Option.map_some, growth, hc]
      | @element _ m _ attributes properties children hm hc hchildren =>
        refine (tree?_eq_element_iff hd).mpr ⟨m, attributes, properties, hm, hc, rfl, ?_⟩
        have hmap := congrArg (List.filterMap id) ((hsub hm children).mp hchildren)
        rwa [List.filterMap_map, List.filterMap_map, Function.id_comp, Function.id_comp,
          List.filterMap_some] at hmap
    · intro h
      cases t with
      | element tag attributes children =>
        have hmap := map_children_tree? hd h
        obtain ⟨m, map, properties, hm, hc, rfl, -⟩ := (tree?_eq_element_iff hd).mp h
        rw [children_of_node? hm] at hmap
        exact .element hm hc ((hsub hm children).mpr hmap)
      | text t =>
        rw [hd.tree?_eq, Option.map_eq_some_iff] at h
        obtain ⟨m, hm, hgrowth⟩ := h
        rw [growth] at hgrowth
        split at hgrowth
        · rename_i hc
          cases hgrowth
          exact .text hm hc
        · cases hgrowth

/-- Every node heads a tree, and only one. -/
theorem exists_heads (hd : d.WellFormed) (hn : d.Known n) :
    ∃ t, d.tree? n = some t ∧ ∀ u, d.Heads n u ↔ u = t := by
  obtain ⟨m, hm⟩ := known_iff.mp hn
  have ht : d.tree? n = some (growth d.tree? m) := by rw [hd.tree?_eq, hm, Option.map_some]
  refine ⟨_, ht, fun u => ?_⟩
  rw [heads_iff_tree? hd, ht, Option.some_inj, eq_comm]

/-- At the node and below, tags and the names of attributes are words. -/
def Named (d : Document κ) (n : NodeId) : Prop :=
  ∀ x m tag attributes properties, d.Within x n → d.node? x = some m →
    m.content = .element tag attributes properties →
      Tree.IsName tag ∧ ∀ a ∈ attributes.entries, Tree.IsName a.1

theorem Named.marks (h : d.Named n) (hd : d.WellFormed) (ht : d.tree? n = some t) :
    ∀ m ∈ t.marks, m.Named := by
  induction n using hd.wellFounded_down.induction generalizing t with
  | _ n ih =>
    intro mark hmark
    cases t with
    | element tag attributes children =>
      obtain ⟨m, map, properties, hm, hc, rfl, hchildren⟩ := (tree?_eq_element_iff hd).mp ht
      obtain ⟨htag, hattributes⟩ := h n m tag map properties .refl hm hc
      rw [Tree.marks, List.cons_append, List.mem_cons, List.mem_append, List.mem_singleton] at hmark
      rcases hmark with rfl | hmark | rfl
      · exact ⟨htag, hattributes⟩
      · obtain ⟨u, hu, hmark⟩ := Tree.mem_marksAll.mp hmark
        rw [← hchildren, List.mem_filterMap] at hu
        obtain ⟨c, hmem, hu⟩ := hu
        rw [← children_of_node? hm] at hmem
        have hnamed : d.Named c := fun x m tag attributes properties hx =>
          h x m tag attributes properties (hx.tail ((hd.linked n c).mp hmem))
        exact ih c hmem hnamed hu mark hmark
      · exact htag
    | text t =>
      obtain ⟨c, -, rfl⟩ := List.mem_map.mp hmark
      trivial

/-! ## Markup of subtrees -/

/-- Two nodes have the same markup just when their subtrees are alike, and then these have the same
elements with the same attributes, whatever the texts and the values are. -/
theorem markup_eq_iff_of_reachable (hd : d.Reachable) (hd' : d'.Reachable) (hn : d.Known n)
    (hn' : d'.Known n') (hnamed : d.Named n) (hnamed' : d'.Named n') :
    ∃ t t', (∀ u, d.Heads n u ↔ u = t) ∧ (∀ u, d'.Heads n' u ↔ u = t') ∧
      (d.markup n = d'.markup n' ↔ t.Alike t') ∧
      (d.markup n = d'.markup n' → t.frame = t'.frame) := by
  obtain ⟨t, ht, hheads⟩ := exists_heads hd.wellFormed hn
  obtain ⟨t', ht', hheads'⟩ := exists_heads hd'.wellFormed hn'
  have halike : d.markup n = d'.markup n' ↔ t.Alike t' := by
    rw [Tree.alike_iff_marks, ← Tree.markup_eq_iff_marks (hnamed.marks hd.wellFormed ht)
      (hnamed'.marks hd'.wellFormed ht'), ← String.toList_inj, toList_markup, toList_markup, ht,
      ht']
    rfl
  exact ⟨t, t', hheads, hheads', halike, fun h => (halike.mp h).frame_eq⟩

/-- A paragraph with some texts, one after another, and a title that looks like markup. -/
def paragraph (texts : List String) : Document ListenerId :=
  Step.after (do
    setAttribute ⟨0⟩ "title" "\"><b>"
    texts.forM fun t => do append ⟨0⟩ (← createText t)) (withContainer "p").1

theorem paragraph_reachable : (paragraph ["a<", "", "b>"]).Reachable ∧
    (paragraph ["a<b>"]).Reachable := by
  have start : Reachable ((withContainer "p").1 : Document ListenerId) := .inr ⟨"p", .refl⟩
  have titled := start.perform id (.setAttribute ⟨0⟩ "title" "\"><b>")
  have one := (titled.perform id (.createText "a<")).perform id (.append ⟨0⟩ ⟨1⟩)
  have two := (one.perform id (.createText "")).perform id (.append ⟨0⟩ ⟨2⟩)
  have three := (two.perform id (.createText "b>")).perform id (.append ⟨0⟩ ⟨3⟩)
  have whole := (titled.perform id (.createText "a<b>")).perform id (.append ⟨0⟩ ⟨1⟩)
  exact ⟨three, whole⟩

/-- A text in three parts is written like the whole text. It makes no element. -/
theorem markup_paragraph :
    (paragraph ["a<", "", "b>"]).markup ⟨0⟩ = "<p title=\"&quot;&gt;&lt;b&gt;\">a&lt;b&gt;</p>" ∧
    ∃ t t', (∀ u, (paragraph ["a<", "", "b>"]).Heads ⟨0⟩ u ↔ u = t) ∧
      (∀ u, (paragraph ["a<b>"]).Heads ⟨0⟩ u ↔ u = t') ∧ t.Alike t' := by
  have hnamed : (paragraph ["a<", "", "b>"]).Named ⟨0⟩ := by
    rintro ⟨i⟩ m tag attributes properties - hm hc
    match i with
    | 0 => cases hm; cases hc; decide
    | 1 => cases hm; cases hc
    | 2 => cases hm; cases hc
    | 3 => cases hm; cases hc
    | _ + 4 => cases hm
  have hnamed' : (paragraph ["a<b>"]).Named ⟨0⟩ := by
    rintro ⟨i⟩ m tag attributes properties - hm hc
    match i with
    | 0 => cases hm; cases hc; decide
    | 1 => cases hm; cases hc
    | _ + 2 => cases hm
  obtain ⟨t, t', ht, ht', halike, -⟩ := markup_eq_iff_of_reachable paragraph_reachable.1
    paragraph_reachable.2 (known_of_node? rfl) (known_of_node? rfl) hnamed hnamed'
  exact ⟨by decide, t, t', ht, ht', halike.mp (by decide)⟩

end Document

end TreeEdit
