/-!
# Maps that remember the order of insertion

An `OrderedMap` is a list of pairs with distinct keys, the oldest key first. Putting a value under
a key that is present keeps the place of the key; a new key goes to the end; erasing a key keeps the
order of the others. The distinctness of the keys is part of the type, so no operation needs it as a
precondition.

Main statements: `get?_put` and `get?_erase` say what a look-up finds after a change, `keys_put` and
`keys_erase` say where the keys stand.
-/

namespace TreeEdit

/-- A finite map whose entries are listed in the order in which their keys came in. -/
structure OrderedMap (α β : Type) where
  /-- The pairs of key and value, the oldest first. -/
  entries : List (α × β)
  /-- No key occurs twice. -/
  nodup : (entries.map Prod.fst).Nodup

namespace OrderedMap

variable {α β : Type}

/-- The map without entries. -/
def empty : OrderedMap α β :=
  ⟨[], List.nodup_nil⟩

instance : Inhabited (OrderedMap α β) :=
  ⟨empty⟩

/-- The number of entries. -/
def size (m : OrderedMap α β) : Nat :=
  m.entries.length

/-- Whether there is no entry. -/
def isEmpty (m : OrderedMap α β) : Bool :=
  m.entries.isEmpty

/-- The keys, the oldest first. -/
def keys (m : OrderedMap α β) : List α :=
  m.entries.map Prod.fst

/-- The entries that satisfy `p`, in their order. -/
def filter (p : α × β → Bool) (m : OrderedMap α β) : OrderedMap α β :=
  ⟨m.entries.filter p, m.nodup.sublist (List.filter_sublist.map _)⟩

variable [DecidableEq α]

/-! ## Association lists -/

/-- The value of the first pair with key `k`. -/
def lookup (k : α) : List (α × β) → Option β
  | [] => none
  | (k', v) :: r => if k' = k then some v else lookup k r

/-- Writes `v` into the first pair with key `k`, or adds the pair at the end. -/
def upsert (k : α) (v : β) : List (α × β) → List (α × β)
  | [] => [(k, v)]
  | (k', v') :: r => if k' = k then (k, v) :: r else (k', v') :: upsert k v r

theorem map_fst_upsert (k : α) (v : β) (l : List (α × β)) :
    (upsert k v l).map Prod.fst
      = if k ∈ l.map Prod.fst then l.map Prod.fst else l.map Prod.fst ++ [k] := by
  induction l with
  | nil => simp [upsert]
  | cons p r ih =>
    obtain ⟨k', v'⟩ := p
    by_cases h : k' = k
    · subst h
      simp [upsert]
    · have h' : ¬k = k' := fun e => h e.symm
      simp only [upsert, if_neg h, List.map_cons, ih, List.mem_cons, h', false_or]
      split <;> simp

theorem lookup_upsert (k k' : α) (v : β) (l : List (α × β)) :
    lookup k' (upsert k v l) = if k = k' then some v else lookup k' l := by
  induction l with
  | nil => simp [upsert, lookup]
  | cons p r ih =>
    obtain ⟨k₁, v₁⟩ := p
    by_cases h₁ : k₁ = k
    · subst h₁
      by_cases h : k₁ = k' <;> simp [upsert, lookup, h]
    · by_cases h₂ : k₁ = k'
      · subst h₂
        simp [upsert, lookup, h₁, Ne.symm h₁]
      · simp [upsert, lookup, h₁, h₂, ih]

theorem lookup_filter_ne (k k' : α) (l : List (α × β)) :
    lookup k' (l.filter fun p => p.1 ≠ k) = if k = k' then none else lookup k' l := by
  induction l with
  | nil => simp [lookup]
  | cons p r ih =>
    obtain ⟨k₁, v₁⟩ := p
    by_cases h₁ : k₁ = k
    · subst h₁
      by_cases h : k₁ = k' <;> simp_all [lookup]
    · by_cases h₂ : k₁ = k'
      · subst h₂
        simp [lookup, h₁, Ne.symm h₁]
      · simp_all [lookup]

/-! ## Operations -/

/-- The value under `k`. -/
def get? (m : OrderedMap α β) (k : α) : Option β :=
  lookup k m.entries

/-- Whether there is a value under `k`. -/
def contains (m : OrderedMap α β) (k : α) : Bool :=
  (m.get? k).isSome

/-- Puts `v` under `k`. A key that is present keeps its place. -/
def put (m : OrderedMap α β) (k : α) (v : β) : OrderedMap α β where
  entries := upsert k v m.entries
  nodup := by
    rw [map_fst_upsert]
    split
    · exact m.nodup
    · rename_i h
      rw [List.nodup_append]
      refine ⟨m.nodup, by simp, ?_⟩
      intro a ha b hb e
      rw [List.mem_singleton] at hb
      exact h (hb ▸ e ▸ ha)

/-- Takes the entry under `k` out. The others keep their order. -/
def erase (m : OrderedMap α β) (k : α) : OrderedMap α β :=
  m.filter fun p => p.1 ≠ k

theorem get?_put (m : OrderedMap α β) (k k' : α) (v : β) :
    (m.put k v).get? k' = if k = k' then some v else m.get? k' :=
  lookup_upsert k k' v m.entries

theorem get?_erase (m : OrderedMap α β) (k k' : α) :
    (m.erase k).get? k' = if k = k' then none else m.get? k' :=
  lookup_filter_ne k k' m.entries

theorem keys_put (m : OrderedMap α β) (k : α) (v : β) :
    (m.put k v).keys = if k ∈ m.keys then m.keys else m.keys ++ [k] :=
  map_fst_upsert k v m.entries

theorem keys_erase (m : OrderedMap α β) (k : α) :
    (m.erase k).keys = m.keys.filter (· ≠ k) := by
  simp only [keys, erase, filter, List.filter_map]
  rfl

end OrderedMap

end TreeEdit
