import TreeEdit.OrderedMap

/-!
# Look-ups in maps, and maps written one entry at a time

A look-up finds an entry just if the entry is there, because no key occurs twice. So a map from
which some entries were taken out finds nothing that it did not find before.

Pairs that are put into a map one after another leave each key once, where it came first, with the
value that came last. `condense` says so of the list of the pairs, with no map in it; `entries_put`
and `condense_condense_append` make it follow puts.
-/

namespace TreeEdit.OrderedMap

variable {α β : Type} [DecidableEq α]

theorem mem_of_lookup {k : α} {v : β} {l : List (α × β)} (h : lookup k l = some v) :
    (k, v) ∈ l := by
  induction l with
  | nil => cases h
  | cons p r ih =>
    obtain ⟨k', v'⟩ := p
    rw [lookup] at h
    split at h
    · rename_i hk
      cases h
      rw [hk]
      exact List.mem_cons_self
    · exact List.mem_cons_of_mem _ (ih h)

theorem lookup_of_mem {k : α} {v : β} {l : List (α × β)} (hl : (l.map Prod.fst).Nodup)
    (h : (k, v) ∈ l) : lookup k l = some v := by
  induction l with
  | nil => cases h
  | cons p r ih =>
    obtain ⟨k', v'⟩ := p
    rw [List.map_cons, List.nodup_cons] at hl
    rw [lookup]
    rcases List.mem_cons.mp h with heq | hmem
    · cases heq
      rw [if_pos rfl]
    · have hne : k' ≠ k := by
        rintro rfl
        exact hl.1 (List.mem_map.mpr ⟨_, hmem, rfl⟩)
      rw [if_neg hne]
      exact ih hl.2 hmem

theorem get?_eq_some_iff {m : OrderedMap α β} {k : α} {v : β} :
    m.get? k = some v ↔ (k, v) ∈ m.entries :=
  ⟨mem_of_lookup, lookup_of_mem m.nodup⟩

theorem get?_filter_eq_some_iff {m : OrderedMap α β} {p : α × β → Bool} {k : α} {v : β} :
    (m.filter p).get? k = some v ↔ m.get? k = some v ∧ p (k, v) = true := by
  rw [get?_eq_some_iff, get?_eq_some_iff]
  exact List.mem_filter

/-! ## Pairs one after another -/

/-- What pairs come to that are written one after another: each key once, where it came first, with
the value that came last. -/
def condense : List (α × β) → List (α × β)
  | [] => []
  | (k, v) :: l => (k, (lookup k l.reverse).getD v) :: (condense l).filter fun p => p.1 ≠ k

theorem filter_upsert_self (k : α) (v : β) (l : List (α × β)) :
    (upsert k v l).filter (fun p => p.1 ≠ k) = l.filter fun p => p.1 ≠ k := by
  induction l with
  | nil => simp [upsert]
  | cons p r ih =>
    obtain ⟨k', v'⟩ := p
    by_cases h : k' = k
    · subst h
      simp [upsert]
    · rw [upsert, if_neg h, List.filter_cons_of_pos (by simpa using h), ih,
        List.filter_cons_of_pos (by simpa using h)]

theorem filter_upsert_of_ne {k k' : α} (h : k ≠ k') (v : β) (l : List (α × β)) :
    (upsert k v l).filter (fun p => p.1 ≠ k') = upsert k v (l.filter fun p => p.1 ≠ k') := by
  induction l with
  | nil => simp [upsert, h]
  | cons p r ih =>
    obtain ⟨k₁, v₁⟩ := p
    by_cases h₁ : k₁ = k
    · subst h₁
      simp [upsert, h]
    · by_cases h₂ : k₁ = k'
      · subst h₂
        rw [upsert, if_neg h₁, List.filter_cons_of_neg (by simp), ih,
          List.filter_cons_of_neg (by simp)]
      · rw [upsert, if_neg h₁, List.filter_cons_of_pos (by simpa using h₂), ih,
          List.filter_cons_of_pos (by simpa using h₂), upsert, if_neg h₁]

/-- One more pair is written as a map writes it. -/
theorem condense_concat (l : List (α × β)) (k : α) (v : β) :
    condense (l ++ [(k, v)]) = upsert k v (condense l) := by
  induction l with
  | nil => rfl
  | cons p r ih =>
    obtain ⟨k', v'⟩ := p
    rw [List.cons_append, condense, List.reverse_concat, lookup, ih, condense, upsert]
    by_cases h : k = k'
    · subst h
      rw [if_pos rfl, if_pos rfl, filter_upsert_self]
      rfl
    · rw [if_neg h, if_neg (Ne.symm h), filter_upsert_of_ne h]

theorem condense_append (l l' : List (α × β)) :
    condense (l ++ l') = l'.foldl (fun r p => upsert p.1 p.2 r) (condense l) := by
  induction l' generalizing l with
  | nil => rw [List.append_nil, List.foldl_nil]
  | cons p r ih =>
    rw [List.append_cons, ih, condense_concat, List.foldl_cons]

theorem nodup_condense (l : List (α × β)) : ((condense l).map Prod.fst).Nodup := by
  induction l with
  | nil => exact List.nodup_nil
  | cons p r ih =>
    obtain ⟨k, v⟩ := p
    rw [condense, List.map_cons, List.nodup_cons]
    refine ⟨fun hk => ?_, ih.sublist (List.filter_sublist.map _)⟩
    obtain ⟨q, hq, rfl⟩ := List.mem_map.mp hk
    simpa using (List.mem_filter.mp hq).2

/-- Pairs with different keys stay as they are. -/
theorem condense_of_nodup {l : List (α × β)} (h : (l.map Prod.fst).Nodup) : condense l = l := by
  induction l with
  | nil => rfl
  | cons p r ih =>
    obtain ⟨k, v⟩ := p
    rw [List.map_cons, List.nodup_cons] at h
    have hnone : lookup k r.reverse = none := by
      rw [Option.eq_none_iff_forall_ne_some]
      intro v' hv'
      exact h.1 (List.mem_map.mpr ⟨_, List.mem_reverse.mp (mem_of_lookup hv'), rfl⟩)
    have hrest : r.filter (fun p => p.1 ≠ k) = r := by
      refine List.filter_eq_self.mpr fun q hq => decide_eq_true ?_
      rintro rfl
      exact h.1 (List.mem_map.mpr ⟨q, hq, rfl⟩)
    rw [condense, hnone, ih h.2, hrest]
    rfl

/-- What was condensed before comes to the same with what is written after it. -/
theorem condense_condense_append (l l' : List (α × β)) :
    condense (condense l ++ l') = condense (l ++ l') := by
  rw [condense_append, condense_append, condense_of_nodup (nodup_condense l)]

theorem condense_entries (m : OrderedMap α β) : condense m.entries = m.entries :=
  condense_of_nodup m.nodup

theorem entries_put (m : OrderedMap α β) (k : α) (v : β) :
    (m.put k v).entries = condense (m.entries ++ [(k, v)]) := by
  rw [condense_concat, condense_entries]
  rfl

end TreeEdit.OrderedMap
